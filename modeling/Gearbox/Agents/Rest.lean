import Gearbox.Agents.Layers
import Gearbox.Uri.Parse

/-!
# Agents behind a uri

An agent with a method is a REST job. `JobManager::job` gives it the canonical form of its key
as the name, and `job_queue` then looks for the entry of the agent under this name with
`operator[]` of the map, which makes a null pointer for a key that is not there, and uses the
pointer. A requirement is compared with the names, too. So the keys of such agents have to be
in canonical form.
-/

namespace Gearbox

namespace Agents

open Refinement

/-- `HttpClient::method_t`, as far as `job_queue` sets it. -/
inductive HttpMethod where
  | get
  | put
  | post
  | delete
  deriving DecidableEq, Repr

/-- A member of the configuration; an agent with a method is a REST job. -/
structure Member extends AgentEntry where
  method : Option String
  deriving DecidableEq, Repr

/-- The configuration, an object with one member for a key. -/
structure RestConfig where
  members : List Member
  key : (members.map fun m => m.name).Nodup

/-- The job that `job_queue` makes for a member. A REST job has no type. -/
structure Node where
  name : String
  method : Option HttpMethod
  type : Option JobType
  timeout : ℤ
  deriving DecidableEq, Repr

/-- How `job_queue` ends when it does not return. -/
inductive QueueFailure where
  | threw (err : Error)
  /-- an exception of a function that is called -/
  | raised (failure : Json.Failure)
  /-- a null pointer is used -/
  | undefined
  deriving DecidableEq, Repr

def httpMethod (mval : String) : HttpMethod :=
  if mval = "PUT" then .put
  else if mval = "POST" then .post
  else if mval = "DELETE" then .delete
  else .get

/-- `Uri(key).canonical()` -/
def canonicalKey (key : String) : Except Json.Failure String := do
  let u ← Uri.parse key.toList
  return String.ofList (← u.canonical)

/-- The body of the loop that makes the jobs. -/
def Member.node (m : Member) : Except Json.Failure Node :=
  match m.method with
  | some mval => do
      return ⟨← canonicalKey m.name, some (httpMethod mval), none, m.timeout.getD 0⟩
  | none => return ⟨m.name, none, some m.job.type, m.timeout.getD 0⟩

def RestConfig.nodes (config : RestConfig) : Except Json.Failure (List Node) :=
  config.members.mapM Member.node

/-- The map `sa`; a pointer may be null. -/
abbrev AgentMap (α : Type) : Type :=
  List (String × Option α)

def RestConfig.sa (config : RestConfig) : AgentMap Member :=
  config.members.map fun m => (m.name, some m)

section Edges

variable {α : Type}

/-- `sa[node]->…` -/
def access (node : String) : Code (AgentMap α) QueueFailure α :=
  Code.mk fun sa =>
    match sa.lookup node with
    | some (some m) => (.ok m, sa)
    | some none => (.error .undefined, sa)
    | none => (.error .undefined, Assoc.insertKey node none sa)

/-- The search for a requirement among the names of the jobs. -/
def nameEdge (names : List String) (i : ℕ) (node req : String) : Except Error (ℕ × ℕ) :=
  match names.findIdx? fun name => req = name with
  | none =>
      .error ⟨500, "Agent: '" ++ node ++ "' has undefined dependency '" ++ req ++ "'"⟩
  | some k =>
      if i = k then
        .error ⟨500, "Agent: '" ++ node ++ "' defines a cyclic dependency!"⟩
      else
        .ok (k, i)

/-- The loop that makes the edges, with those for the requirements of one job. Further accesses to
`sa` find the same. -/
def nodesEdges (edgesOf : String × ℕ → α → Except QueueFailure (List (ℕ × ℕ))) :
    List (String × ℕ) → Code (AgentMap α) QueueFailure (List (ℕ × ℕ))
  | [] => return []
  | x :: rest => do
      let m ← access x.1
      let es ← (liftM (edgesOf x m) : Code (AgentMap α) QueueFailure (List (ℕ × ℕ)))
      return es ++ (← nodesEdges edgesOf rest)

end Edges

/-- The edges for all requirements of one job. -/
def Member.edges (names : List String) (x : String × ℕ) (m : Member) :
    Except QueueFailure (List (ℕ × ℕ)) :=
  (m.require.mapM (nameEdge names x.2 x.1)).mapError QueueFailure.threw

/-- `job_queue` up to the graph. -/
def jobGraph (config : RestConfig) :
    Code (AgentMap Member) QueueFailure (List Node × List (ℕ × ℕ)) := do
  let nodes ← (liftM (config.nodes.mapError QueueFailure.raised) :
    Code (AgentMap Member) QueueFailure (List Node))
  let names := nodes.map Node.name
  return (nodes, ← nodesEdges (Member.edges names) names.zipIdx)

section Names

variable {config : RestConfig} {nodes : List Node} {m : Member} {n : Node}

theorem canonicalKey_of_node (h : m.node = .ok n) (hmethod : m.method.isSome) :
    canonicalKey m.name = .ok n.name := by
  obtain ⟨mval, hmval⟩ := Option.isSome_iff_exists.mp hmethod
  rw [Member.node, hmval] at h
  obtain ⟨name, hname, hn⟩ := bind_eq_ok.mp h
  cases hn
  exact hname

theorem name_of_node (h : m.node = .ok n) (hmethod : m.method = none) : n.name = m.name := by
  rw [Member.node, hmethod] at h
  cases h
  rfl

theorem exists_node (h : config.nodes = .ok nodes) {i : ℕ} (hm : config.members[i]? = some m) :
    ∃ n, nodes[i]? = some n ∧ m.node = .ok n := by
  have hall := mapM_eq_ok.mp h
  obtain ⟨hlt, rfl⟩ := List.getElem?_eq_some_iff.mp hm
  have hlt' : i < nodes.length := hall.length_eq ▸ hlt
  exact ⟨nodes[i], List.getElem?_eq_getElem hlt', hall.get hlt hlt'⟩

theorem exists_member (h : config.nodes = .ok nodes) {i : ℕ} (hn : nodes[i]? = some n) :
    ∃ m, config.members[i]? = some m ∧ m.node = .ok n := by
  have hall := mapM_eq_ok.mp h
  obtain ⟨hlt, rfl⟩ := List.getElem?_eq_some_iff.mp hn
  have hlt' : i < config.members.length := hall.length_eq ▸ hlt
  exact ⟨config.members[i], List.getElem?_eq_getElem hlt', hall.get hlt' hlt⟩

theorem lookup_sa {k : String} : config.sa.lookup k = some (some m) ↔
    m ∈ config.members ∧ m.name = k := by
  have hkeys : (config.sa.map Prod.fst).Nodup := by
    rw [RestConfig.sa, List.map_map]
    exact config.key
  rw [← Assoc.mem_iff_lookup_of_nodup hkeys, RestConfig.sa, List.mem_map]
  constructor
  · rintro ⟨m', hm', heq⟩
    cases heq
    exact ⟨hm', rfl⟩
  · rintro ⟨hm, rfl⟩
    exact ⟨m, hm, rfl⟩

theorem outcome_access {α : Type} {a : α} {sa : AgentMap α} {k : String} :
    outcome (access k) sa = (.ok a, sa) ↔ sa.lookup k = some (some a) := by
  rw [access, outcome_mk]
  cases sa.lookup k with
  | none => simp
  | some p =>
      cases p with
      | none => simp
      | some a' => simp

end Names

section Resolve

variable {config : RestConfig} {nodes : List Node}

/-- The keys of the agents with a method are in canonical form. -/
def RestConfig.Canonical (config : RestConfig) : Prop :=
  ∀ m ∈ config.members, m.method.isSome → canonicalKey m.name = .ok m.name

/-- The entry of every job is found under its name, the key of an agent that is required leads
to the job of the agent, and `job_queue` adds no keys. -/
structure Resolves (config : RestConfig) (nodes : List Node) : Prop where
  own : ∀ (i : ℕ) (m : Member) (n : Node), config.members[i]? = some m → nodes[i]? = some n →
    outcome (access n.name) config.sa = (.ok m, config.sa)
  required : ∀ (j : ℕ) (m m' : Member), m ∈ config.members → config.members[j]? = some m' →
    m'.name ∈ m.require →
    (nodes.map Node.name).findIdx? (fun name => m'.name = name) = some j
  unchanged : (outcome (jobGraph config) config.sa).2 = config.sa

/-- The names of the jobs are the keys. -/
theorem names_eq (h : config.nodes = .ok nodes) (hcanonical : config.Canonical) :
    nodes.map Node.name = config.members.map fun m => m.name := by
  have hall := mapM_eq_ok.mp h
  apply List.ext_getElem?
  intro i
  rw [List.getElem?_map, List.getElem?_map]
  cases hm : config.members[i]? with
  | none =>
      have hn : nodes[i]? = none := by
        rw [List.getElem?_eq_none_iff] at hm ⊢
        exact hall.length_eq ▸ hm
      rw [hn]
      rfl
  | some m =>
      obtain ⟨n, hn, hnode⟩ := exists_node h hm
      rw [hn, Option.map_some, Option.map_some]
      cases hmethod : m.method with
      | none => rw [name_of_node hnode hmethod]
      | some mval =>
          have hsome : m.method.isSome := Option.isSome_iff_exists.mpr ⟨mval, hmethod⟩
          have hname := hcanonical m (List.mem_of_getElem? hm) hsome
          rw [canonicalKey_of_node hnode hsome, Except.ok.injEq] at hname
          rw [hname]

/-- Where every access finds its entry, the map stays as it is. -/
theorem nodesEdges_unchanged {α : Type}
    (edgesOf : String × ℕ → α → Except QueueFailure (List (ℕ × ℕ))) {sa : AgentMap α}
    {xs : List (String × ℕ)} (h : ∀ x ∈ xs, ∃ a, outcome (access x.1) sa = (.ok a, sa)) :
    (outcome (nodesEdges edgesOf xs) sa).2 = sa := by
  induction xs with
  | nil => rfl
  | cons x rest ih =>
      rw [List.forall_mem_cons] at h
      obtain ⟨a, ha⟩ := h.1
      rw [nodesEdges, outcome_bind_ok ha, outcome_bind, outcome_lift]
      cases edgesOf x a with
      | error e => rfl
      | ok es =>
          dsimp only
          rw [outcome_bind]
          cases hrest : outcome (nodesEdges edgesOf rest) sa with
          | mk result sa' =>
              have hsa : sa' = sa := by
                rw [← ih h.2, hrest]
              cases result with
              | error e => exact hsa
              | ok es' => exact hsa

theorem jobGraph_unchanged (h : config.nodes = .ok nodes)
    (hown : ∀ (i : ℕ) (m : Member) (n : Node), config.members[i]? = some m →
      nodes[i]? = some n → outcome (access n.name) config.sa = (.ok m, config.sa)) :
    (outcome (jobGraph config) config.sa).2 = config.sa := by
  have hnodes : outcome (liftM (config.nodes.mapError QueueFailure.raised) :
      Code (AgentMap Member) QueueFailure (List Node)) config.sa = (.ok nodes, config.sa) := by
    rw [outcome_lift, h]
    rfl
  have hedges : (outcome (nodesEdges (Member.edges (nodes.map Node.name))
      (nodes.map Node.name).zipIdx) config.sa).2 = config.sa := by
    refine nodesEdges_unchanged _ ?_
    rintro ⟨name, i⟩ hmem
    have hname := List.mem_zipIdx_iff_getElem?.mp hmem
    rw [List.getElem?_map] at hname
    obtain ⟨n, hn, rfl⟩ := Option.map_eq_some_iff.mp hname
    obtain ⟨m, hm, -⟩ := exists_member h hn
    exact ⟨m, hown i m n hm hn⟩
  rw [jobGraph, outcome_bind_ok hnodes]
  dsimp only
  rw [outcome_bind]
  cases hresult : outcome (nodesEdges (Member.edges (nodes.map Node.name))
      (nodes.map Node.name).zipIdx) config.sa with
  | mk result sa' =>
      rw [hresult] at hedges
      cases result with
      | error e => exact hedges
      | ok es => exact hedges

theorem findIdx?_of_nodup {names : List String} (hnodup : names.Nodup) {j : ℕ} {a : String}
    (ha : names[j]? = some a) : names.findIdx? (fun name => a = name) = some j := by
  obtain ⟨hlt, rfl⟩ := List.getElem?_eq_some_iff.mp ha
  rw [List.findIdx?_eq_some_iff_getElem]
  refine ⟨hlt, decide_eq_true rfl, fun i hij => ?_⟩
  rw [Bool.not_eq_true, decide_eq_false_iff_not]
  intro heq
  have hsame := (List.Nodup.getElem_inj_iff hnodup).mp heq
  omega

/-- The agents resolve to their own entries if and only if the keys of the agents with a method
are in canonical form. -/
theorem resolves_iff (h : config.nodes = .ok nodes) :
    Resolves config nodes ↔ config.Canonical := by
  constructor
  · intro hresolves m hm hmethod
    obtain ⟨i, hi⟩ := List.getElem?_of_mem hm
    obtain ⟨n, hn, hnode⟩ := exists_node h hi
    have hname := (lookup_sa.mp (outcome_access.mp (hresolves.own i m n hi hn))).2
    rw [canonicalKey_of_node hnode hmethod, hname]
  · intro hcanonical
    have hnames := names_eq h hcanonical
    have hown : ∀ (i : ℕ) (m : Member) (n : Node), config.members[i]? = some m →
        nodes[i]? = some n → outcome (access n.name) config.sa = (.ok m, config.sa) := by
      intro i m n hm hn
      have hname : (nodes.map Node.name)[i]? = (config.members.map fun m => m.name)[i]? := by
        rw [hnames]
      rw [List.getElem?_map, List.getElem?_map, hm, hn] at hname
      rw [outcome_access, lookup_sa]
      exact ⟨List.mem_of_getElem? hm, (Option.some.inj hname).symm⟩
    refine ⟨hown, ?_, jobGraph_unchanged h hown⟩
    intro j m m' hm hm' hreq
    rw [hnames]
    refine findIdx?_of_nodup config.key ?_
    rw [List.getElem?_map, hm', Option.map_some]

/-- A REST agent that requires a gearman agent, and another REST agent. -/
def restAgents : RestConfig where
  members := [⟨⟨"do_fetch_v1", none, none, []⟩, none⟩,
    ⟨⟨"http://h/a", none, none, ["do_fetch_v1", "http://h/b"]⟩, some "PUT"⟩,
    ⟨⟨"http://h/b", none, some 60, []⟩, some "GET"⟩]
  key := by decide

/-- A REST agent whose uri has no path. -/
def withoutPath : RestConfig where
  members := [⟨⟨"http://h", none, none, []⟩, some "GET"⟩]
  key := by decide

theorem resolves_restAgents : Resolves restAgents
    [⟨"do_fetch_v1", none, some .async, 0⟩, ⟨"http://h/a", some .put, none, 0⟩,
      ⟨"http://h/b", some .get, none, 60⟩] := by
  have hnodes : restAgents.nodes = .ok [⟨"do_fetch_v1", none, some .async, 0⟩,
      ⟨"http://h/a", some .put, none, 0⟩, ⟨"http://h/b", some .get, none, 60⟩] := by
    rfl
  refine (resolves_iff hnodes).mpr ?_
  rw [RestConfig.Canonical]
  decide

/-- The name of the job is not the key, and the look-up adds a key and uses a null pointer. -/
theorem not_resolves :
    withoutPath.nodes = .ok [⟨"http://h/", some .get, none, 0⟩] ∧
    outcome (jobGraph withoutPath) withoutPath.sa =
      (.error .undefined, withoutPath.sa ++ [("http://h/", none)]) ∧
    ¬ Resolves withoutPath [⟨"http://h/", some .get, none, 0⟩] := by
  refine ⟨rfl, rfl, fun hresolves => ?_⟩
  have hown := hresolves.own 0 _ _ rfl rfl
  cases hown

end Resolve

end Agents

end Gearbox
