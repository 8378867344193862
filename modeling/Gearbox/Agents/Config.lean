import Gearbox.Agents.Rest
import Gearbox.Job.Accepted

/-!
# The configuration of the agents

`JobManager::job_queue` is given the configuration as a tree and checks nothing before it uses it:
a type that is not a string or a timeout that is not an integer makes it throw, and a member with
a method has its key read as a uri. Where the fields have their types, the graph is that of the
members that are read from them (`configGraph_eq`), and without methods it is that of the agents
(`jobGraph_eq`).

The requirements are counted in an `int`, so that a list of more than `2 ^ 31` of them is not
looked at, or not to its end.
-/

namespace Gearbox

namespace Agents

open Json Refinement Texts

variable {D : Type}

section Reading

/-- The type of an agent. -/
def readType (j : Json D) : Except Failure JobType :=
  match j.member "type" with
  | none => return .async
  | some v => do return if (← v.asString) = "SYNC" then .sync else .async

/-- The timeout of an agent; zero is none. -/
def readTimeout (j : Json D) : Except Failure ℤ :=
  match j.member "timeout" with
  | none => return 0
  | some v => do return toInt32 (← v.asInt64)

/-- The body of the loop that makes the jobs. -/
def readNode (m : Jobs.Manager) (baseUri : String) (x : String × Json D) :
    Except Failure Node := do
  let type ← readType x.2
  match x.2.member "method" with
  | some v =>
      let mval ← v.asString
      let name ← canonicalKey x.1
      return ⟨name, some (httpMethod mval), none, ← readTimeout x.2⟩
  | none =>
      let f ← Jobs.newJob m baseUri x.1
      return ⟨f.name, none, some type, ← readTimeout x.2⟩

/-- The rounds of a loop that goes on while its index is at most `n - 1`, which is an `int`. -/
def rounds (n : ℤ) : Except QueueFailure ℕ :=
  if n = -2 ^ 31 then throw .undefined else return n.toNat

/-- What a requirement is found to be. -/
def readEdge (names : List String) (x : String × ℕ) (j : Json D) :
    Except QueueFailure (ℕ × ℕ) := do
  let req ← j.asString.mapError QueueFailure.raised
  (nameEdge names x.2 x.1 req).mapError QueueFailure.threw

/-- The edges for all requirements of one job. -/
def readEdges (names : List String) (x : String × ℕ) (j : Json D) :
    Except QueueFailure (List (ℕ × ℕ)) :=
  match j.member "require" with
  | none => return []
  | some v => do
      let n ← rounds v.length
      match v with
      | .array a => (a.take n).mapM (readEdge names x)
      | _ => return []

/-- `job_queue` up to the graph. -/
def configGraph (m : Jobs.Manager) (baseUri : String) (o : List (String × Json D)) :
    Code (AgentMap (Json D)) QueueFailure (List Node × List (ℕ × ℕ)) := do
  let nodes ← (liftM ((o.mapM (readNode m baseUri)).mapError QueueFailure.raised) :
    Code (AgentMap (Json D)) QueueFailure (List Node))
  let names := nodes.map Node.name
  let n ← (liftM (rounds (toInt32 nodes.length)) : Code (AgentMap (Json D)) QueueFailure ℕ)
  return (nodes, ← nodesEdges (readEdges names) (names.zipIdx.take n))

/-- `JobManager::job_queue`, from the configuration. -/
def jobQueueOf (topologicalSort : ℕ → List (ℕ × ℕ) → Except String (List ℕ)) (m : Jobs.Manager)
    (baseUri : String) (config : Json D) : Except QueueFailure (List (List Node)) :=
  if config.empty then return []
  else do
    let o ← config.asObject.mapError QueueFailure.raised
    let (nodes, es) ← (outcome (configGraph m baseUri o) (o.map fun x => (x.1, some x.2))).1
    match topologicalSort nodes.length es with
    | .error what => throw (.threw ⟨500, "Cycle detected in configuration: " ++ what⟩)
    | .ok order => return grouped nodes es order

end Reading

section Members

/-- The fields that `job_queue` asks for have their types. -/
structure Typed (j : Json D) : Prop where
  type : ∀ v, j.member "type" = some v → ∃ text, v = .string text
  method : ∀ v, j.member "method" = some v → ∃ mval, v = .string mval
  timeout : ∀ v, j.member "timeout" = some v → ∃ n, v = .int n

/-- The requirements are a list of strings that an `int` can count. -/
def Listed (j : Json D) : Prop :=
  ∀ v, j.member "require" = some v →
    ∃ names : List String, v = .array (names.map .string) ∧ names.length < 2 ^ 31

/-- The requirements, if they are a list of strings. -/
def requirements (j : Json D) : List String :=
  match j.member "require" with
  | some (.array a) => a.filterMap fun e => e.asString.toOption
  | _ => []

/-- The member of the configuration, if its fields have their types. -/
def memberOf (x : String × Json D) : Member where
  name := x.1
  type := (x.2.member "type").bind fun v => v.asString.toOption
  timeout := (x.2.member "timeout").bind fun v => (v.asInt64.toOption).map toInt32
  require := requirements x.2
  method := (x.2.member "method").bind fun v => v.asString.toOption

theorem names_memberOf (o : List (String × Json D)) :
    (o.map memberOf).map (fun m => m.name) = o.map Prod.fst := by
  rw [List.map_map]
  rfl

/-- The configuration with the fields that are read. -/
def restConfigOf (o : List (String × Json D)) (hkeys : (o.map Prod.fst).Nodup) : RestConfig where
  members := o.map memberOf
  key := by rwa [names_memberOf]

/-- A name of a gearman job that the manager knows. -/
structure GearmanName (m : Jobs.Manager) (name : String) : Prop where
  known : m.known name = true
  notUri : ¬ "://".toList <:+: name.toList
  named : ∀ f, ∃ f', Jobs.setJobFromName f name = .ok f'

variable {m : Jobs.Manager} {baseUri key : String} {j : Json D} {x : String × Json D}

theorem GearmanName.newJob (h : GearmanName m key) (baseUri : String) :
    ∃ f, Jobs.newJob m baseUri key = .ok f ∧ f.name = key := by
  obtain ⟨f, hf⟩ := h.named { Jobs.Fields.new .gearman with
    baseUri := baseUri, parentUri := m.parentUri, name := key }
  obtain ⟨op, component, resource, hfields⟩ := Jobs.setJobFromName_eq hf
  refine ⟨f, ?_, by rw [hfields]⟩
  rw [Jobs.newJob, if_pos h.known, Jobs.Fields.named, if_neg h.notUri]
  exact hf

theorem GearmanName.canonicalKey (h : GearmanName m key) :
    ∃ e, Agents.canonicalKey key = .error e := by
  have hcut : cutAt [':', '/', '/'] key.toList = none := by
    cases hcut : cutAt [':', '/', '/'] key.toList with
    | none => rfl
    | some found =>
        obtain ⟨heq, -⟩ := (cutAt_eq_some_iff (by decide)).mp hcut
        exact absurd ⟨found.1, found.2, by rw [heq, List.append_assoc]; rfl⟩ h.notUri
  rw [Agents.canonicalKey, Uri.parse, hcut]
  exact ⟨_, rfl⟩

theorem readType_eq (h : Typed x.2) : readType x.2 = .ok (memberOf x).job.type := by
  rw [readType, AgentEntry.job, memberOf]
  cases hv : x.2.member "type" with
  | none => rfl
  | some v =>
      obtain ⟨text, rfl⟩ := h.type v hv
      by_cases htext : text = "SYNC"
      · subst htext
        rfl
      · have hne : ¬ some text = some "SYNC" := fun heq => htext (Option.some.inj heq)
        simp [asString, Except.toOption, htext]

theorem readTimeout_eq (h : Typed x.2) :
    readTimeout x.2 = .ok ((memberOf x).timeout.getD 0) := by
  rw [readTimeout, memberOf]
  cases hv : x.2.member "timeout" with
  | none => rfl
  | some v =>
      obtain ⟨n, rfl⟩ := h.timeout v hv
      rfl

/-- A member whose fields have their types makes the job of the fields that are read. -/
theorem readNode_eq (h : Typed x.2) (hname : x.2.member "method" = none → GearmanName m x.1) :
    readNode m baseUri x = (memberOf x).node := by
  rw [readNode, readType_eq h, readTimeout_eq h, Member.node]
  cases hv : x.2.member "method" with
  | none =>
      obtain ⟨f, hjob, hf⟩ := (hname hv).newJob baseUri
      have hmethod : (memberOf x).method = none := by
        rw [memberOf, hv]
        rfl
      rw [ok_bind, hmethod]
      dsimp only
      rw [hjob, ok_bind, ok_bind, hf]
      rfl
  | some v =>
      obtain ⟨mval, rfl⟩ := h.method v hv
      have hmethod : (memberOf x).method = some mval := by
        rw [memberOf, hv]
        rfl
      rw [ok_bind, hmethod]
      rfl

/-- The job of a gearman name needs fields of the right types, and no method. -/
theorem typed_of_readNode {n : Node} (hname : GearmanName m x.1)
    (h : readNode m baseUri x = .ok n) : Typed x.2 ∧ x.2.member "method" = none := by
  rw [readNode] at h
  obtain ⟨type, htype, h⟩ := bind_eq_ok.mp h
  have hmethod : x.2.member "method" = none := by
    cases hv : x.2.member "method" with
    | none => rfl
    | some v =>
        rw [hv] at h
        obtain ⟨mval, -, h⟩ := bind_eq_ok.mp h
        obtain ⟨name, hcanonical, -⟩ := bind_eq_ok.mp h
        obtain ⟨e, he⟩ := hname.canonicalKey
        rw [he] at hcanonical
        cases hcanonical
  rw [hmethod] at h
  obtain ⟨f, -, h⟩ := bind_eq_ok.mp h
  obtain ⟨timeout, htimeout, -⟩ := bind_eq_ok.mp h
  refine ⟨⟨fun v hv => ?_, fun v hv => ?_, fun v hv => ?_⟩, hmethod⟩
  · rw [readType, hv] at htype
    cases v with
    | string text => exact ⟨text, rfl⟩
    | _ => cases htype
  · rw [hmethod] at hv
    cases hv
  · rw [readTimeout, hv] at htimeout
    cases v with
    | int n => exact ⟨n, rfl⟩
    | _ => cases htimeout

theorem rounds_of_lt {n : ℕ} (h : n < 2 ^ 31) : rounds (toInt32 n) = .ok n := by
  have hint : toInt32 n = n := Int.bmod_eq_of_le (by omega) (by omega)
  rw [rounds, hint, if_neg (by omega)]
  rfl

/-- The requirements that are read. -/
theorem readEdges_eq (h : Listed x.2) (names : List String) (i : ℕ) :
    readEdges names (x.1, i) x.2 = Member.edges names (x.1, i) (memberOf x) := by
  rw [readEdges, Member.edges, memberOf]
  dsimp only
  rw [requirements]
  cases hv : x.2.member "require" with
  | none => rfl
  | some v =>
      obtain ⟨reqs, rfl, hlt⟩ := h v hv
      have hlength : Json.length (.array (reqs.map .string) : Json D) = toInt32 reqs.length := by
        rw [Json.length, List.length_map]
      have hreqs : (reqs.map (Json.string (D := D))).filterMap (fun e => e.asString.toOption) =
          reqs := by
        rw [List.filterMap_map]
        exact List.filterMap_some
      dsimp only
      rw [hlength, rounds_of_lt hlt, ok_bind, hreqs, List.take_of_length_le (by simp),
        List.mapM_map, ← mapM_mapError]
      rfl

end Members

section Graph

/-- The same edges from two maps, if they are the same for their values. -/
theorem nodesEdges_congr {α β : Type} {f : String → α → β}
    {edgesOf : String × ℕ → α → Except QueueFailure (List (ℕ × ℕ))}
    {edgesOf' : String × ℕ → β → Except QueueFailure (List (ℕ × ℕ))} {sa : AgentMap α}
    {sa' : AgentMap β} (hsa : ∀ k, sa'.lookup k = (sa.lookup k).map (Option.map (f k)))
    (hedges : ∀ x a, sa.lookup x.1 = some (some a) → edgesOf x a = edgesOf' x (f x.1 a))
    (xs : List (String × ℕ)) :
    (outcome (nodesEdges edgesOf xs) sa).1 = (outcome (nodesEdges edgesOf' xs) sa').1 := by
  induction xs with
  | nil => rfl
  | cons x rest ih =>
      have hx := hsa x.1
      rw [nodesEdges, nodesEdges]
      cases hlookup : sa.lookup x.1 with
      | none =>
          rw [hlookup] at hx
          rw [outcome_bind, outcome_bind, access, access, outcome_mk, outcome_mk, hlookup, hx]
          rfl
      | some p =>
          rw [hlookup] at hx
          cases p with
          | none =>
              rw [outcome_bind, outcome_bind, access, access, outcome_mk, outcome_mk, hlookup, hx]
              rfl
          | some a =>
              rw [outcome_bind_ok (outcome_access.mpr hlookup), outcome_bind_ok
                (outcome_access.mpr hx), outcome_bind, outcome_bind, outcome_lift, outcome_lift,
                hedges x a hlookup]
              cases edgesOf' x (f x.1 a) with
              | error e => rfl
              | ok es =>
                  dsimp only
                  rw [outcome_bind, outcome_bind]
                  cases hrest : outcome (nodesEdges edgesOf rest) sa with
                  | mk result s =>
                      cases hrest' : outcome (nodesEdges edgesOf' rest) sa' with
                      | mk result' s' =>
                          rw [hrest, hrest'] at ih
                          dsimp only at ih
                          subst ih
                          cases result with
                          | error e => rfl
                          | ok es' => rfl

variable {m : Jobs.Manager} {baseUri : String} {o : List (String × Json D)}

theorem lookup_memberOf (o : List (String × Json D)) (k : String) :
    ((o.map memberOf).map fun m => (m.name, some m)).lookup k =
      ((o.map fun x => (x.1, some x.2)).lookup k).map (Option.map fun j => memberOf (k, j)) := by
  induction o with
  | nil => rfl
  | cons x o ih =>
      have hname : (memberOf x).name = x.1 := rfl
      rw [List.map_cons, List.map_cons, List.map_cons, Assoc.lookup_cons_eq, Assoc.lookup_cons_eq,
        hname]
      by_cases hk : k = x.1
      · subst hk
        rw [if_pos rfl, if_pos rfl]
        rfl
      · rw [if_neg hk, if_neg hk]
        exact ih

/-- Where the fields have their types, the graph is that of the members that are read. -/
theorem configGraph_eq (hkeys : (o.map Prod.fst).Nodup) (htyped : ∀ x ∈ o, Typed x.2)
    (hnames : ∀ x ∈ o, x.2.member "method" = none → GearmanName m x.1)
    (hlisted : ∀ x ∈ o, Listed x.2) (hlength : o.length < 2 ^ 31) :
    (outcome (configGraph m baseUri o) (o.map fun x => (x.1, some x.2))).1 =
      (outcome (jobGraph (restConfigOf o hkeys)) (restConfigOf o hkeys).sa).1 := by
  have hnodes : o.mapM (readNode m baseUri) = (restConfigOf o hkeys).nodes := by
    rw [RestConfig.nodes, restConfigOf, List.mapM_map]
    exact mapM_congr fun x hx => readNode_eq (htyped x hx) (hnames x hx)
  rw [configGraph, jobGraph, hnodes]
  cases hresult : (restConfigOf o hkeys).nodes with
  | error e => rfl
  | ok nodes =>
      have hcount : nodes.length = o.length := by
        rw [← (mapM_eq_ok.mp (hnodes.trans hresult)).length_eq]
      have hfound : ∀ (x : String × ℕ) (j : Json D),
          (o.map fun x => (x.1, some x.2)).lookup x.1 = some (some j) →
          readEdges (nodes.map Node.name) x j =
            Member.edges (nodes.map Node.name) x (memberOf (x.1, j)) := by
        rintro ⟨k, i⟩ j hj
        have hkeys' : ((o.map fun x => (x.1, some x.2)).map Prod.fst).Nodup := by
          rwa [List.map_map]
        obtain ⟨x, hx, heq⟩ := List.mem_map.mp
          ((Assoc.mem_iff_lookup_of_nodup hkeys').mpr hj)
        cases heq
        exact readEdges_eq (hlisted x hx) _ i
      have hedges := nodesEdges_congr (lookup_memberOf o) hfound (nodes.map Node.name).zipIdx
      have htake : (nodes.map Node.name).zipIdx.take nodes.length =
          (nodes.map Node.name).zipIdx :=
        List.take_of_length_le (by simp)
      have hrounds : rounds (toInt32 nodes.length) = .ok nodes.length :=
        rounds_of_lt (hcount ▸ hlength)
      dsimp only [Except.mapError]
      rw [outcome_bind_ok (outcome_lift (.ok nodes) _), hrounds,
        outcome_bind_ok (outcome_lift (.ok nodes.length) _), htake,
        outcome_bind_ok (outcome_lift (.ok nodes) _), outcome_bind, outcome_bind]
      cases hleft : outcome (nodesEdges (readEdges (nodes.map Node.name))
          (nodes.map Node.name).zipIdx) (o.map fun x => (x.1, some x.2)) with
      | mk result s =>
          cases hright : outcome (nodesEdges (Member.edges (nodes.map Node.name))
              (nodes.map Node.name).zipIdx) (restConfigOf o hkeys).sa with
          | mk result' s' =>
              rw [hleft] at hedges
              have hsame : result = result' := hedges.trans (congrArg Prod.fst hright)
              subst hsame
              cases result with
              | error e => rfl
              | ok es => rfl

end Graph

section Agents

/-- The agents of a configuration without methods. -/
def RestConfig.agents (config : RestConfig) : AgentConfig where
  entries := config.members.map Member.toAgentEntry
  key := by
    rw [List.map_map]
    exact config.key

/-- The job of an agent without a method. -/
def Agent.node (a : Agent) : Node where
  name := a.name
  method := none
  type := some a.type
  timeout := a.timeout

variable {config : RestConfig}

theorem nameEdge_eq (nodes : List Agent) (i : ℕ) (node req : String) :
    nameEdge (nodes.map Agent.name) i node req = edge nodes i node req := by
  rw [nameEdge, edge, List.findIdx?_map]
  rfl

theorem nodes_agents (h : ∀ m ∈ config.members, m.method = none) :
    config.nodes = .ok (config.agents.nodes.map Agent.node) := by
  have hnode : ∀ m ∈ config.members, m.node = pure (m.toAgentEntry.job.node) := by
    intro m hm
    rw [Member.node, h m hm]
    rfl
  rw [RestConfig.nodes, mapM_congr hnode, List.mapM_pure, AgentConfig.nodes, RestConfig.agents,
    List.map_map, List.map_map]
  rfl

/-- The loop over some of the members makes the edges to their agents. -/
theorem nodesEdges_members {names : List String}
    (hnames : names = config.agents.nodes.map Agent.name) (xs : List (Member × ℕ))
    (hxs : ∀ x ∈ xs, x.1 ∈ config.members) :
    (outcome (nodesEdges (Member.edges names) (xs.map fun x => (x.1.name, x.2))) config.sa).1 =
      ((xs.mapM fun x => config.agents.edgesTo (x.1.toAgentEntry, x.2)).mapError
        QueueFailure.threw).map List.flatten := by
  induction xs with
  | nil => rfl
  | cons x rest ih =>
      rw [List.forall_mem_cons] at hxs
      have hfound : outcome (access x.1.name) config.sa = (.ok x.1, config.sa) :=
        outcome_access.mpr (lookup_sa.mpr ⟨hxs.1, rfl⟩)
      have hedges : Member.edges names (x.1.name, x.2) x.1 =
          (config.agents.edgesTo (x.1.toAgentEntry, x.2)).mapError QueueFailure.threw := by
        rw [Member.edges, AgentConfig.edgesTo, hnames]
        exact congrArg _ (mapM_congr fun req _ => nameEdge_eq _ _ _ req)
      have hrest := ih hxs.2
      rw [List.map_cons, nodesEdges, outcome_bind_ok hfound, outcome_bind, outcome_lift, hedges,
        List.mapM_cons]
      cases config.agents.edgesTo (x.1.toAgentEntry, x.2) with
      | error e => rfl
      | ok es =>
          dsimp only [Except.mapError]
          rw [outcome_bind]
          cases hresult : outcome (nodesEdges (Member.edges names)
              (rest.map fun x => (x.1.name, x.2))) config.sa with
          | mk result sa =>
              rw [hresult] at hrest
              dsimp only at hrest
              subst hrest
              cases rest.mapM fun x => config.agents.edgesTo (x.1.toAgentEntry, x.2) with
              | error e => rfl
              | ok ess => rfl

/-- Without methods, the graph is that of the agents. -/
theorem jobGraph_eq (h : ∀ m ∈ config.members, m.method = none) :
    (outcome (jobGraph config) config.sa).1 =
      (config.agents.edges.mapError QueueFailure.threw).map fun es =>
        (config.agents.nodes.map Agent.node, es) := by
  have hnames : (config.agents.nodes.map Agent.node).map Node.name =
      config.agents.nodes.map Agent.name := by
    rw [List.map_map]
    rfl
  have hzip : (config.agents.nodes.map Agent.name).zipIdx =
      config.members.zipIdx.map fun x => (x.1.name, x.2) := by
    rw [nodes_names, RestConfig.agents, List.map_map, List.zipIdx_map]
    rfl
  have hmem : ∀ x ∈ config.members.zipIdx, x.1 ∈ config.members := fun x hx =>
    List.mem_of_getElem? (List.mem_zipIdx_iff_getElem?.mp hx)
  have hedges := nodesEdges_members rfl config.members.zipIdx hmem
  have hentries : config.agents.entries.zipIdx.mapM config.agents.edgesTo =
      config.members.zipIdx.mapM fun x => config.agents.edgesTo (x.1.toAgentEntry, x.2) := by
    rw [RestConfig.agents, List.zipIdx_map, List.mapM_map]
    rfl
  rw [jobGraph, nodes_agents h]
  dsimp only [Except.mapError]
  rw [outcome_bind_ok (outcome_lift (.ok _) _), hnames, hzip, outcome_bind, AgentConfig.edges,
    hentries]
  cases hresult : outcome (nodesEdges (Member.edges (config.agents.nodes.map Agent.name))
      (config.members.zipIdx.map fun x => (x.1.name, x.2))) config.sa with
  | mk result sa =>
      rw [hresult] at hedges
      dsimp only at hedges
      subst hedges
      cases config.members.zipIdx.mapM fun x =>
          config.agents.edgesTo (x.1.toAgentEntry, x.2) with
      | error e => rfl
      | ok ess => rfl

end Agents

section Layers

variable {m : Jobs.Manager} {baseUri : String} {o : List (String × Json D)}
  {topologicalSort : ℕ → List (ℕ × ℕ) → Except String (List ℕ)}

theorem grouped_map {α β : Type} (f : α → β) (nodes : List α) (es : List (ℕ × ℕ))
    (order : List ℕ) :
    grouped (nodes.map f) es order = (grouped nodes es order).map (List.map f) := by
  rw [grouped, grouped, List.map_map]
  refine List.map_congr_left fun k _ => ?_
  rw [Function.comp_apply, List.map_filterMap]
  simp only [List.getElem?_map]

/-- The agents of a configuration, with the fields that are read. -/
def agentsOf (o : List (String × Json D)) (hkeys : (o.map Prod.fst).Nodup) : AgentConfig :=
  (restConfigOf o hkeys).agents

/-- Where the fields have their types and there is no method, the queue is that of the agents. -/
theorem jobQueueOf_eq (hkeys : (o.map Prod.fst).Nodup)
    (htyped : ∀ x ∈ o, Typed x.2 ∧ x.2.member "method" = none)
    (hnames : ∀ x ∈ o, GearmanName m x.1) (hlisted : ∀ x ∈ o, Listed x.2)
    (hlength : o.length < 2 ^ 31) :
    jobQueueOf topologicalSort m baseUri (.object o) =
      ((jobQueue topologicalSort (agentsOf o hkeys)).mapError QueueFailure.threw).map
        (List.map (List.map Agent.node)) := by
  have hmethod : ∀ m ∈ (restConfigOf o hkeys).members, m.method = none := by
    intro m hm
    obtain ⟨x, hx, rfl⟩ := List.mem_map.mp hm
    rw [memberOf, (htyped x hx).2]
    rfl
  have hconfig : (outcome (configGraph m baseUri o) (o.map fun x => (x.1, some x.2))).1 =
      (outcome (jobGraph (restConfigOf o hkeys)) (restConfigOf o hkeys).sa).1 :=
    configGraph_eq hkeys (fun x hx => (htyped x hx).1) (fun x hx _ => hnames x hx) hlisted hlength
  have hgraph := hconfig.trans (jobGraph_eq hmethod)
  rw [jobQueueOf, jobQueue]
  cases o with
  | nil => rfl
  | cons x rest =>
      rw [if_neg (by exact Bool.false_ne_true), if_neg (by exact Bool.false_ne_true)]
      dsimp only [asObject, Except.mapError]
      rw [ok_bind, hgraph]
      change _ = Except.map _ (Except.mapError _
        ((restConfigOf (x :: rest) hkeys).agents.edges >>= _))
      cases (restConfigOf (x :: rest) hkeys).agents.edges with
      | error e => rfl
      | ok es =>
          dsimp only [Except.mapError, Except.map]
          rw [ok_bind, ok_bind, List.length_map]
          dsimp only
          rw [agentsOf]
          cases topologicalSort (restConfigOf (x :: rest) hkeys).agents.nodes.length es with
          | error what => rfl
          | ok order => exact congrArg Except.ok (grouped_map Agent.node _ es order)

/-- A member whose fields have not their types, or with a method, makes `job_queue` throw. -/
theorem jobQueueOf_error (hnames : ∀ x ∈ o, GearmanName m x.1)
    (hfields : ¬ ∀ x ∈ o, Typed x.2 ∧ x.2.member "method" = none) :
    ∃ e, jobQueueOf topologicalSort m baseUri (.object o) = .error e := by
  rw [jobQueueOf]
  cases o with
  | nil => exact absurd (fun x hx => absurd hx List.not_mem_nil) hfields
  | cons x rest =>
      rw [if_neg (by exact Bool.false_ne_true)]
      cases hnodes : (x :: rest).mapM (readNode m baseUri) with
      | error e =>
          dsimp only [asObject, Except.mapError]
          rw [ok_bind, configGraph, hnodes]
          exact ⟨_, rfl⟩
      | ok nodes =>
          refine absurd (fun y hy => ?_) hfields
          obtain ⟨n, -, hn⟩ := exists_of_mapM hnodes hy
          exact typed_of_readNode (hnames y hy) hn

/-- `job_queue` throws if and only if a field has not its type, a member has a method, a
requirement names no agent, an agent requires itself, or the requirements have a cycle. Otherwise
its levels are the layers of the agents. -/
theorem jobQueueOf_layers (hkeys : (o.map Prod.fst).Nodup)
    (hnames : ∀ x ∈ o, GearmanName m x.1) (hlisted : ∀ x ∈ o, Listed x.2)
    (hlength : o.length < 2 ^ 31)
    (hsort : ∀ es, (agentsOf o hkeys).edges = .ok es →
      Sorts o.length es (topologicalSort o.length es)) :
    ((∃ e, jobQueueOf topologicalSort m baseUri (.object o) = .error e) ↔
      (∃ x ∈ o, ¬ Typed x.2 ∨ x.2.hasKey "method" = true) ∨ (agentsOf o hkeys).Faulty) ∧
    ∀ q, jobQueueOf topologicalSort m baseUri (.object o) = .ok q →
      ∃ q', IsLayered (agentsOf o hkeys) q' ∧ q = q'.map (List.map Agent.node) := by
  have hkey : ∀ x : String × Json D, x.2.hasKey "method" = true ↔ x.2.member "method" ≠ none :=
    fun x => Option.isSome_iff_ne_none
  by_cases hfields : ∀ x ∈ o, Typed x.2 ∧ x.2.member "method" = none
  · have hfine : ¬ ∃ x ∈ o, ¬ Typed x.2 ∨ x.2.hasKey "method" = true := by
      rintro ⟨x, hx, htyped | hmethod⟩
      · exact htyped (hfields x hx).1
      · exact (hkey x).mp hmethod (hfields x hx).2
    have hcount : (agentsOf o hkeys).nodes.length = o.length := by
      rw [AgentConfig.nodes, agentsOf, RestConfig.agents, restConfigOf, List.length_map,
        List.length_map, List.length_map]
    rw [← hcount] at hsort
    obtain ⟨hthrows, hlayered⟩ := jobQueue_layers hsort
    rw [jobQueueOf_eq hkeys hfields hnames hlisted hlength, or_iff_right hfine, ← hthrows]
    cases hresult : jobQueue topologicalSort (agentsOf o hkeys) with
    | error err =>
        refine ⟨⟨fun _ => ⟨err, rfl⟩, fun _ => ⟨_, rfl⟩⟩, fun q hq => ?_⟩
        cases hq
    | ok q =>
        refine ⟨⟨?_, ?_⟩, fun q₁ hq => ?_⟩
        · rintro ⟨e, ⟨⟩⟩
        · rintro ⟨err, ⟨⟩⟩
        · cases hq
          exact ⟨q, hlayered q hresult, rfl⟩
  · obtain ⟨e, he⟩ : ∃ e, jobQueueOf topologicalSort m baseUri (.object o) = .error e :=
      jobQueueOf_error hnames hfields
    refine ⟨⟨fun _ => .inl ?_, fun _ => ⟨e, he⟩⟩, fun q hq => ?_⟩
    · simp only [not_forall, not_and_or] at hfields
      obtain ⟨x, hx, htyped | hmethod⟩ := hfields
      · exact ⟨x, hx, .inl htyped⟩
      · exact ⟨x, hx, .inr ((hkey x).mpr hmethod)⟩
    · rw [he] at hq
      cases hq

/-- A manager that knows all jobs. -/
def anyJob : Jobs.Manager where
  known _ := true
  parentUri := ""
  schemaDir := ""
  needed := -1
  requireSchemas := false

theorem gearmanName_install : GearmanName anyJob "do_install_global_agent_v1" where
  known := rfl
  notUri := by decide
  named f := ⟨_, rfl⟩

theorem gearmanName_fetch : GearmanName anyJob "do_fetch_global_agent_v1" where
  known := rfl
  notUri := by decide
  named f := ⟨_, rfl⟩

/-- Two agents, of which the second requires the first. -/
def twoAgents : List (String × Json ℤ) :=
  [("do_fetch_global_agent_v1", .object [("timeout", .int 60)]),
    ("do_install_global_agent_v1", .object
      [("require", .array [.string "do_fetch_global_agent_v1"]), ("type", .string "SYNC")])]

/-- The order of the two agents. -/
def fetchFirst (_ : ℕ) (_ : List (ℕ × ℕ)) : Except String (List ℕ) :=
  .ok [0, 1]

/-- The agent that is required is in the level before. -/
theorem jobQueueOf_twoAgents : ∃ q', IsLayered (agentsOf twoAgents (by decide)) q' ∧
    [[⟨"do_fetch_global_agent_v1", none, some .async, 60⟩],
      [⟨"do_install_global_agent_v1", none, some .sync, 0⟩]] = q'.map (List.map Agent.node) := by
  have hnames : ∀ x ∈ twoAgents, GearmanName anyJob x.1 := by
    simp [twoAgents, gearmanName_fetch, gearmanName_install]
  have hlisted : ∀ x ∈ twoAgents, Listed x.2 := by
    intro x hx v hv
    rcases List.mem_pair.mp hx with rfl | rfl
    · cases hv
    · cases hv
      exact ⟨["do_fetch_global_agent_v1"], rfl, by decide⟩
  have hsort : ∀ es, (agentsOf twoAgents (by decide)).edges = .ok es →
      Sorts twoAgents.length es (fetchFirst twoAgents.length es) := by
    intro es hes
    have hedges : (agentsOf twoAgents (by decide)).edges = .ok [(0, 1)] := rfl
    rw [hedges] at hes
    cases hes
    refine ⟨by decide, fun pre i post heq k hk => ?_⟩
    cases List.mem_singleton.mp hk
    cases pre with
    | nil => cases heq
    | cons v pre =>
        obtain ⟨rfl, -⟩ := List.cons_eq_cons.mp heq
        exact List.mem_cons_self
  have hqueue : jobQueueOf fetchFirst anyJob "" (.object twoAgents) = .ok
      [[⟨"do_fetch_global_agent_v1", none, some .async, 60⟩],
        [⟨"do_install_global_agent_v1", none, some .sync, 0⟩]] := rfl
  exact (jobQueueOf_layers (by decide) hnames hlisted (by decide) hsort).2 _ hqueue

/-- An agent whose timeout is a string. -/
def stringTimeout : List (String × Json ℤ) :=
  [("do_fetch_global_agent_v1", .object [("timeout", .string "60")])]

/-- An agent whose timeout is a string makes `job_queue` throw, with nothing wrong in the
requirements. -/
theorem not_jobQueueOf_layers :
    ¬ ∀ (o : List (String × Json ℤ)) (hkeys : (o.map Prod.fst).Nodup),
      (∀ x ∈ o, GearmanName anyJob x.1) →
      (∀ x ∈ o, ∀ v, x.2.member "require" = some v →
        ∃ names : List String, v = .array (names.map .string)) →
      ((∃ e, jobQueueOf fetchFirst anyJob "" (.object o) = .error e) ↔
        (agentsOf o hkeys).Faulty) := by
  intro h
  have hnames : ∀ x ∈ stringTimeout, GearmanName anyJob x.1 := by
    simp [stringTimeout, gearmanName_fetch]
  have hlisted : ∀ x ∈ stringTimeout, ∀ v, x.2.member "require" = some v →
      ∃ names : List String, v = .array (names.map .string) := by
    intro x hx v hv
    cases List.mem_singleton.mp hx
    cases hv
  have hfaulty := (h stringTimeout (by decide) hnames hlisted).mp ⟨_, rfl⟩
  have hnone : ∀ a b, ¬ (agentsOf stringTimeout (by decide)).Requires a b := by
    rintro a b ⟨e, he, -, ha⟩
    cases List.mem_singleton.mp he
    cases ha
  rcases hfaulty with ⟨a, b, hreq, -⟩ | ⟨a, hreq⟩ | ⟨a, hcycle⟩
  · exact hnone a b hreq
  · exact hnone a a hreq
  · obtain ⟨b, hreq, -⟩ := Relation.TransGen.head'_iff.mp hcycle
    exact hnone a b hreq

end Layers

end Agents

end Gearbox
