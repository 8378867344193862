import Mathlib.Data.List.Basic
import Mathlib.Data.List.Nodup
import Mathlib.Data.List.Range
import Mathlib.Data.Int.Notation
import Mathlib.Logic.Function.Basic
import Mathlib.Logic.Relation
import Gearbox.Refinement.Meets

/-!
# The queue of agents

`JobManager::job_queue` turns the agent configuration of a request into a list of levels.
It makes a node for every agent and an edge for every requirement, sorts the graph
topologically and gives every agent the length of the longest chain of requirements below
it; the agents with the same length form a level. `jobQueue_isQueue` says what the rest of
the development uses of it: no level is empty, no agent occurs twice, and an agent stands
in a later level than everything it requires.

`boost::topological_sort` is a parameter, as a function that gives an order of the nodes
or the text of the exception for a graph with a cycle. What is used of its result is
`IsTopologicalOrder`.
-/

namespace Gearbox

namespace Agents

/-- An exception, with the code that `run_job` answers. -/
structure Error where
  code : ℤ
  message : String
  deriving DecidableEq, Repr

inductive JobType where
  | sync
  | async
  deriving DecidableEq, Repr

/-- One member of the agent configuration, with fields of the types that `job_queue` asks for; an
absent list of requirements is empty. -/
structure AgentEntry where
  name : String
  type : Option String
  timeout : Option ℤ
  require : List String
  deriving DecidableEq, Repr

/-- The agent configuration, an object whose keys are the names of the agents. -/
structure AgentConfig where
  entries : List AgentEntry
  key : (entries.map AgentEntry.name).Nodup

/-- The job of an agent, as far as `job_queue` sets it. -/
structure Agent where
  name : String
  type : JobType
  timeout : ℤ
  deriving DecidableEq, Repr

def AgentEntry.job (e : AgentEntry) : Agent where
  name := e.name
  type := if e.type = some "SYNC" then .sync else .async
  timeout := e.timeout.getD 0

def AgentConfig.nodes (config : AgentConfig) : List Agent :=
  config.entries.map AgentEntry.job

/-- The edge for the requirement `req` of the agent `node`, which is number `i`. -/
def edge (nodes : List Agent) (i : ℕ) (node req : String) : Except Error (ℕ × ℕ) :=
  match nodes.findIdx? fun j => req = j.name with
  | none =>
      .error ⟨500, "Agent: '" ++ node ++ "' has undefined dependency '" ++ req ++ "'"⟩
  | some k =>
      if i = k then
        .error ⟨500, "Agent: '" ++ node ++ "' defines a cyclic dependency!"⟩
      else
        .ok (k, i)

/-- The edges for all requirements of one agent. -/
def AgentConfig.edgesTo (config : AgentConfig) (x : AgentEntry × ℕ) :
    Except Error (List (ℕ × ℕ)) :=
  x.1.require.mapM (edge config.nodes x.2 x.1.name)

/-- The edges of the graph, from a requirement to the agent that requires it. -/
def AgentConfig.edges (config : AgentConfig) : Except Error (List (ℕ × ℕ)) := do
  let es ← config.entries.zipIdx.mapM config.edgesTo
  return es.flatten

/-- The sources of the edges into `v`. -/
def inEdges (es : List (ℕ × ℕ)) (v : ℕ) : List ℕ :=
  (es.filter fun e => e.2 = v).map Prod.fst

/-- The vector `edge_count` and the map `group`. -/
structure Grouping where
  edgeCount : ℕ → ℕ
  group : ℕ → List ℕ

/-- One iteration of the loop over the sorted nodes. -/
def Grouping.place (es : List (ℕ × ℕ)) (g : Grouping) (v : ℕ) : Grouping :=
  if inEdges es v = [] then
    { g with group := Function.update g.group 0 (g.group 0 ++ [v]) }
  else
    let count := ((inEdges es v).map g.edgeCount).foldl max 0 + 1
    { edgeCount := Function.update g.edgeCount v count
      group := Function.update g.group count (g.group count ++ [v]) }

def grouping (es : List (ℕ × ℕ)) (order : List ℕ) : Grouping :=
  order.foldl (Grouping.place es) ⟨fun _ => 0, fun _ => []⟩

/-- The keys of the map `group`, in ascending order. No count exceeds the number of nodes. -/
def Grouping.keys (g : Grouping) (order : List ℕ) : List ℕ :=
  (List.range (order.length + 1)).filter fun k => g.group k ≠ []

/-- The groups for an order of the nodes, one level for every key. -/
def grouped {α : Type} (nodes : List α) (es : List (ℕ × ℕ)) (order : List ℕ) : List (List α) :=
  ((grouping es order).keys order).map fun k =>
    ((grouping es order).group k).filterMap (nodes[·]?)

def levels (config : AgentConfig) (es : List (ℕ × ℕ)) (order : List ℕ) :
    List (List Agent) :=
  grouped config.nodes es order

/-- `JobManager::job_queue`. -/
def jobQueue (topologicalSort : ℕ → List (ℕ × ℕ) → Except String (List ℕ))
    (config : AgentConfig) : Except Error (List (List Agent)) :=
  if config.entries.isEmpty then .ok []
  else do
    let es ← config.edges
    match topologicalSort config.nodes.length es with
    | .error what => .error ⟨500, "Cycle detected in configuration: " ++ what⟩
    | .ok order => .ok (levels config es order)

/-- An order of the nodes `0, …, n - 1` in which the source of every edge stands before
its target. -/
structure IsTopologicalOrder (n : ℕ) (es : List (ℕ × ℕ)) (order : List ℕ) : Prop where
  perm : order.Perm (List.range n)
  ordered : ∀ pre i post, order = pre ++ i :: post → ∀ k, (k, i) ∈ es → k ∈ pre

/-- `b` requires `a`. -/
def AgentConfig.Requires (config : AgentConfig) (a b : String) : Prop :=
  ∃ e ∈ config.entries, e.name = b ∧ a ∈ e.require

/-- The names of the agents of level `i`. -/
def levelNames (q : List (List Agent)) (i : ℕ) : List String :=
  (q.getD i []).map Agent.name

/-- `a` is an agent of a level below the level of `b`. -/
def Below (q : List (List Agent)) (a b : String) : Prop :=
  ∃ i j, i < j ∧ a ∈ levelNames q i ∧ b ∈ levelNames q j

section Grouping

variable {es : List (ℕ × ℕ)}

/-- What holds after the nodes `done` have been placed. -/
structure Placed (es : List (ℕ × ℕ)) (done : List ℕ) (g : Grouping) : Prop where
  closed : ∀ e ∈ es, e.2 ∈ done → e.1 ∈ done
  later : ∀ e ∈ es, e.2 ∈ done → g.edgeCount e.1 < g.edgeCount e.2
  group : ∀ c, g.group c = done.filter fun v => g.edgeCount v = c
  bound : ∀ v, g.edgeCount v ≤ done.length
  fresh : ∀ v, v ∉ done → g.edgeCount v = 0

theorem mem_inEdges {k v : ℕ} : k ∈ inEdges es v ↔ (k, v) ∈ es := by
  simp [inEdges]

theorem foldl_max_le {c : ℕ} {xs : List ℕ} {m : ℕ} (hm : m ≤ c)
    (hxs : ∀ x ∈ xs, x ≤ c) : xs.foldl max m ≤ c := by
  induction xs generalizing m with
  | nil => exact hm
  | cons x xs ih =>
      have hx := hxs x (by simp)
      exact ih (Nat.max_le.mpr ⟨hm, hx⟩) fun y hy => hxs y (by simp [hy])

theorem le_foldl_max (xs : List ℕ) (m : ℕ) :
    m ≤ xs.foldl max m ∧ ∀ x ∈ xs, x ≤ xs.foldl max m := by
  induction xs generalizing m with
  | nil => simp
  | cons x xs ih =>
      obtain ⟨hm, hxs⟩ := ih (max m x)
      rw [List.foldl_cons]
      refine ⟨by omega, ?_⟩
      intro y hy
      rcases List.mem_cons.mp hy with rfl | hy
      · omega
      · exact hxs y hy

/-- The new node goes to the group of its count, and no other count changes. -/
theorem group_update {done : List ℕ} {g : Grouping} (h : Placed es done g) {v count : ℕ}
    (hv : v ∉ done) (c : ℕ) :
    Function.update g.group count (g.group count ++ [v]) c
      = (done ++ [v]).filter fun u => Function.update g.edgeCount v count u = c := by
  have hdone : (done.filter fun u => Function.update g.edgeCount v count u = c)
      = done.filter fun u => g.edgeCount u = c := by
    refine List.filter_congr fun u hu => ?_
    have huv : u ≠ v := fun huv => hv (huv ▸ hu)
    rw [Function.update_of_ne huv]
  rw [List.filter_append, hdone]
  by_cases hc : c = count
  · rw [hc, Function.update_self, h.group]
    simp
  · rw [Function.update_of_ne hc, h.group]
    have hne : ¬ count = c := fun heq => hc heq.symm
    simp [hne]

/-- Placing one more node, all of whose requirements are placed. -/
theorem Placed.place {done : List ℕ} {g : Grouping} (h : Placed es done g) {v : ℕ}
    (hv : v ∉ done) (hdeps : ∀ k, (k, v) ∈ es → k ∈ done) :
    Placed es (done ++ [v]) (g.place es v) := by
  have hclosed : ∀ e ∈ es, e.2 ∈ done ++ [v] → e.1 ∈ done := by
    intro e he hmem
    rcases List.mem_append.mp hmem with hmem | hmem
    · exact h.closed e he hmem
    · exact hdeps e.1 (by rwa [← List.mem_singleton.mp hmem])
  rw [Grouping.place]
  split
  next hin =>
    have hself : Function.update g.edgeCount v 0 = g.edgeCount := by
      rw [← h.fresh v hv, Function.update_eq_self]
    refine ⟨fun e he hm => List.mem_append_left _ (hclosed e he hm), ?_, ?_, ?_, ?_⟩
    · intro e he hmem
      rcases List.mem_append.mp hmem with hmem | hmem
      · exact h.later e he hmem
      · have hmem' : e.1 ∈ inEdges es v := by
          rw [mem_inEdges, ← List.mem_singleton.mp hmem]
          exact he
        rw [hin] at hmem'
        cases hmem'
    · intro c
      rw [← hself]
      exact group_update h hv c
    · intro u
      have hu := h.bound u
      simp only [List.length_append, List.length_singleton]
      omega
    · intro u hu
      exact h.fresh u fun hmem => hu (List.mem_append_left _ hmem)
  next =>
    have hne : ∀ u ∈ done, u ≠ v := fun u hu huv => hv (huv ▸ hu)
    refine ⟨fun e he hm => List.mem_append_left _ (hclosed e he hm), ?_, ?_, ?_, ?_⟩
    · intro e he hmem
      have hsource := hne e.1 (hclosed e he hmem)
      rcases List.mem_append.mp hmem with hmem | hmem
      · simp only [Function.update_of_ne hsource, Function.update_of_ne (hne e.2 hmem)]
        exact h.later e he hmem
      · have htarget := List.mem_singleton.mp hmem
        have hmem' : e.1 ∈ inEdges es v := by
          rw [mem_inEdges, ← htarget]
          exact he
        have hle := (le_foldl_max ((inEdges es v).map g.edgeCount) 0).2 (g.edgeCount e.1)
          (List.mem_map_of_mem hmem')
        simp only [htarget, Function.update_self, Function.update_of_ne hsource]
        omega
    · exact group_update h hv
    · intro u
      have hcount : ((inEdges es v).map g.edgeCount).foldl max 0 ≤ done.length := by
        refine foldl_max_le (Nat.zero_le _) fun x hx => ?_
        obtain ⟨w, -, rfl⟩ := List.mem_map.mp hx
        exact h.bound w
      have hu := h.bound u
      simp only [List.length_append, List.length_singleton, Function.update_apply]
      split <;> omega
    · intro u hu
      have huv : u ≠ v := fun huv => hu (by simp [huv])
      simp only [Function.update_of_ne huv]
      exact h.fresh u fun hmem => hu (List.mem_append_left _ hmem)

/-- The loop over the whole order. -/
theorem placed_grouping {order : List ℕ} (hnodup : order.Nodup)
    (hordered : ∀ pre i post, order = pre ++ i :: post → ∀ k, (k, i) ∈ es → k ∈ pre) :
    Placed es order (grouping es order) := by
  induction order using List.reverseRecOn with
  | nil =>
      refine ⟨?_, ?_, fun _ => rfl, fun _ => Nat.le_refl _, fun _ _ => rfl⟩
      · intro e _ hmem
        cases hmem
      · intro e _ hmem
        cases hmem
  | append_singleton order v ih =>
      have hdone := ih (List.Nodup.of_append_left hnodup) fun pre i post heq =>
        hordered pre i (post ++ [v]) (by rw [heq, List.append_assoc, List.cons_append])
      have hv : v ∉ order := by
        intro hmem
        exact List.disjoint_of_nodup_append hnodup hmem (by simp)
      rw [grouping, List.foldl_append]
      exact hdone.place hv (hordered order v [] rfl)

end Grouping

section Requirements

/-- An edge leads from the agent with the required name. -/
theorem edge_ok {nodes : List Agent} {i : ℕ} {node req : String} {e : ℕ × ℕ}
    (h : edge nodes i node req = .ok e) :
    e.2 = i ∧ (nodes[e.1]?).map Agent.name = some req := by
  rw [edge] at h
  split at h
  · cases h
  next k hk =>
    split at h
    · cases h
    · cases h
      obtain ⟨hlt, hname, -⟩ := List.findIdx?_eq_some_iff_getElem.mp hk
      have hreq : req = nodes[k].name := by simpa using hname
      refine ⟨rfl, ?_⟩
      rw [List.getElem?_eq_getElem hlt, Option.map_some, ← hreq]

/-- Every requirement has its edge. -/
theorem mem_edges {config : AgentConfig} {es : List (ℕ × ℕ)} (h : config.edges = .ok es)
    {e : AgentEntry} {i : ℕ} (he : config.entries[i]? = some e) {req : String}
    (hreq : req ∈ e.require) :
    ∃ k, (k, i) ∈ es ∧ (config.nodes[k]?).map Agent.name = some req := by
  rw [AgentConfig.edges] at h
  cases hall : config.entries.zipIdx.mapM config.edgesTo with
  | error err =>
      rw [hall] at h
      cases h
  | ok ess =>
      rw [hall] at h
      cases h
      have hmem : (e, i) ∈ config.entries.zipIdx := List.mem_zipIdx_iff_getElem?.mpr he
      obtain ⟨es', hes', hto⟩ := Refinement.exists_of_mapM hall hmem
      obtain ⟨x, hx, hedge⟩ := Refinement.exists_of_mapM hto hreq
      obtain ⟨htarget, hsource⟩ := edge_ok hedge
      refine ⟨x.1, List.mem_flatten.mpr ⟨es', hes', ?_⟩, hsource⟩
      have hxi : x = (x.1, i) := Prod.ext rfl htarget
      rw [← hxi]
      exact hx

theorem nodes_getElem? (config : AgentConfig) (i : ℕ) :
    config.nodes[i]? = (config.entries[i]?).map AgentEntry.job := by
  rw [AgentConfig.nodes, List.getElem?_map]

theorem nodes_names (config : AgentConfig) :
    config.nodes.map Agent.name = config.entries.map AgentEntry.name := by
  rw [AgentConfig.nodes, List.map_map]
  rfl

/-- A name belongs to one node only. -/
theorem index_eq_of_name_eq {config : AgentConfig} {i j : ℕ} {a b : Agent}
    (ha : config.nodes[i]? = some a) (hb : config.nodes[j]? = some b)
    (hname : a.name = b.name) : i = j := by
  have hkey := config.key
  rw [← nodes_names] at hkey
  have hi : (config.nodes.map Agent.name)[i]? = some a.name := by
    rw [List.getElem?_map, ha, Option.map_some]
  have hj : (config.nodes.map Agent.name)[j]? = some a.name := by
    rw [List.getElem?_map, hb, Option.map_some, hname]
  obtain ⟨hlt, -⟩ := List.getElem?_eq_some_iff.mp hi
  exact (List.getElem?_inj hlt hkey).mp (hi.trans hj.symm)

end Requirements

section Levels

variable {config : AgentConfig} {es : List (ℕ × ℕ)} {order : List ℕ}

/-- What the agents of a queue are, level by level. -/
structure IsQueue (config : AgentConfig) (q : List (List Agent)) : Prop where
  nonempty : ∀ i, i < q.length → levelNames q i ≠ []
  nodup : ∀ i, (levelNames q i).Nodup
  unique : ∀ i j a, a ∈ levelNames q i → a ∈ levelNames q j → i = j
  requires : ∀ a b, config.Requires a b → Below q a b

theorem mem_keys {g : Grouping} {k : ℕ} (hk : k ∈ g.keys order) : g.group k ≠ [] := by
  rw [Grouping.keys, List.mem_filter] at hk
  exact of_decide_eq_true hk.2

theorem keys_sorted (g : Grouping) : (g.keys order).Pairwise (· < ·) :=
  List.Pairwise.filter _ List.pairwise_lt_range

/-- An agent of level `i` is a node whose count is the key of that level. -/
theorem mem_levelNames (hplaced : Placed es order (grouping es order)) {i : ℕ}
    {a : String} (ha : a ∈ levelNames (levels config es order) i) :
    ∃ v b, v ∈ order ∧ config.nodes[v]? = some b ∧ b.name = a ∧
      ((grouping es order).keys order)[i]? = some ((grouping es order).edgeCount v) := by
  rw [levelNames, List.mem_map] at ha
  obtain ⟨b, hb, hname⟩ := ha
  rw [levels, grouped, List.getD_eq_getElem?_getD, List.getElem?_map] at hb
  cases hkey : ((grouping es order).keys order)[i]? with
  | none =>
      rw [hkey] at hb
      cases hb
  | some k =>
      rw [hkey, Option.map_some, Option.getD_some, List.mem_filterMap] at hb
      obtain ⟨v, hv, hnode⟩ := hb
      rw [hplaced.group, List.mem_filter] at hv
      have hcount : (grouping es order).edgeCount v = k := of_decide_eq_true hv.2
      exact ⟨v, b, hv.1, hnode, hname, by rw [hcount]⟩

/-- Every node stands in the level of its count. -/
theorem mem_levelNames_of_node (hplaced : Placed es order (grouping es order))
    {v : ℕ} {b : Agent} (hv : v ∈ order) (hb : config.nodes[v]? = some b) :
    (grouping es order).edgeCount v ∈ (grouping es order).keys order ∧
    ∀ i, ((grouping es order).keys order)[i]? = some ((grouping es order).edgeCount v) →
      b.name ∈ levelNames (levels config es order) i := by
  have hgroup : v ∈ (grouping es order).group ((grouping es order).edgeCount v) := by
    rw [hplaced.group, List.mem_filter]
    exact ⟨hv, decide_eq_true rfl⟩
  constructor
  · rw [Grouping.keys, List.mem_filter, List.mem_range]
    refine ⟨Nat.lt_succ_of_le (hplaced.bound v), decide_eq_true ?_⟩
    exact List.ne_nil_of_mem hgroup
  · intro i hi
    rw [levelNames, levels, grouped, List.getD_eq_getElem?_getD, List.getElem?_map, hi,
      Option.map_some, Option.getD_some]
    refine List.mem_map_of_mem (List.mem_filterMap.mpr ⟨v, hgroup, hb⟩)

/-- In a strictly ascending list a smaller member has a smaller index. -/
theorem exists_index_lt {xs : List ℕ} (hsorted : xs.Pairwise (· < ·)) {x y : ℕ}
    (hx : x ∈ xs) (hy : y ∈ xs) (hxy : x < y) :
    ∃ i j : ℕ, i < j ∧ xs[i]? = some x ∧ xs[j]? = some y := by
  obtain ⟨i, hi, hxi⟩ := List.getElem_of_mem hx
  obtain ⟨j, hj, hyj⟩ := List.getElem_of_mem hy
  refine ⟨i, j, ?_, ?_, ?_⟩
  · rcases Nat.lt_trichotomy i j with hij | hij | hij
    · exact hij
    · subst hij
      omega
    · have hlt := List.pairwise_iff_getElem.mp hsorted j i hj hi hij
      omega
  · rw [List.getElem?_eq_getElem hi, hxi]
  · rw [List.getElem?_eq_getElem hj, hyj]

/-- The levels for a topological order. -/
theorem isQueue_levels (hes : config.edges = .ok es)
    (horder : IsTopologicalOrder config.nodes.length es order) :
    IsQueue config (levels config es order) := by
  have hnodup : order.Nodup := horder.perm.nodup_iff.mpr List.nodup_range
  have hplaced := placed_grouping hnodup horder.ordered
  have hmem : ∀ {v b}, config.nodes[v]? = some b → v ∈ order := by
    intro v b hb
    obtain ⟨hlt, -⟩ := List.getElem?_eq_some_iff.mp hb
    exact horder.perm.mem_iff.mpr (List.mem_range.mpr hlt)
  refine ⟨?_, ?_, ?_, ?_⟩
  · intro i hi
    rw [levels, grouped, List.length_map] at hi
    have hne := mem_keys (List.getElem_mem hi)
    obtain ⟨v, hv⟩ := List.exists_mem_of_ne_nil _ hne
    rw [hplaced.group, List.mem_filter] at hv
    obtain ⟨hv, hcount⟩ := hv
    have hlt : v < config.nodes.length :=
      List.mem_range.mp (horder.perm.mem_iff.mp hv)
    have hnode := List.getElem?_eq_getElem hlt
    refine List.ne_nil_of_mem ((mem_levelNames_of_node hplaced hv hnode).2 i ?_)
    rw [List.getElem?_eq_getElem hi, of_decide_eq_true hcount]
  · intro i
    rw [levelNames, levels, grouped, List.getD_eq_getElem?_getD, List.getElem?_map]
    cases ((grouping es order).keys order)[i]? with
    | none => exact List.nodup_nil
    | some k =>
        rw [Option.map_some, Option.getD_some, hplaced.group, List.map_filterMap]
        refine (hnodup.filter _).filterMap fun v w a hv hw => ?_
        obtain ⟨b, hb, hbname⟩ := Option.map_eq_some_iff.mp hv
        obtain ⟨c, hc, hcname⟩ := Option.map_eq_some_iff.mp hw
        exact index_eq_of_name_eq hb hc (hbname.trans hcname.symm)
  · intro i j a hi hj
    obtain ⟨v, b, -, hb, hbname, hkeyi⟩ := mem_levelNames hplaced hi
    obtain ⟨w, c, -, hc, hcname, hkeyj⟩ := mem_levelNames hplaced hj
    have hvw := index_eq_of_name_eq hb hc (hbname.trans hcname.symm)
    rw [← hvw] at hkeyj
    have hkeys : ((grouping es order).keys order).Nodup :=
      (keys_sorted _).imp fun h => Nat.ne_of_lt h
    obtain ⟨hlt, -⟩ := List.getElem?_eq_some_iff.mp hkeyi
    exact (List.getElem?_inj hlt hkeys).mp (hkeyi.trans hkeyj.symm)
  · intro a b hreq
    obtain ⟨e, he, hname, ha⟩ := hreq
    obtain ⟨i, hi⟩ := List.getElem?_of_mem he
    obtain ⟨k, hk, hknode⟩ := mem_edges hes hi ha
    obtain ⟨c, hc, hcname⟩ := Option.map_eq_some_iff.mp hknode
    have hinode : config.nodes[i]? = some e.job := by
      rw [nodes_getElem?, hi, Option.map_some]
    have hlt := hplaced.later (k, i) hk (hmem hinode)
    obtain ⟨hkeyk, hlevelk⟩ := mem_levelNames_of_node hplaced (hmem hc) hc
    obtain ⟨hkeyi, hleveli⟩ := mem_levelNames_of_node hplaced (hmem hinode) hinode
    obtain ⟨l, m, hlm, hl, hm⟩ := exists_index_lt (keys_sorted _) hkeyk hkeyi hlt
    refine ⟨l, m, hlm, ?_, ?_⟩
    · rw [← hcname]
      exact hlevelk l hl
    · rw [← hname]
      exact hleveli m hm

/-- The queue of every accepted configuration has nonempty levels, every agent stands in
one place, and above everything that it requires. -/
theorem jobQueue_isQueue
    {topologicalSort : ℕ → List (ℕ × ℕ) → Except String (List ℕ)}
    (htopological : ∀ n es order, topologicalSort n es = .ok order →
      IsTopologicalOrder n es order)
    {q : List (List Agent)} (h : jobQueue topologicalSort config = .ok q) :
    IsQueue config q := by
  rw [jobQueue] at h
  split at h
  next hempty =>
    cases h
    refine ⟨?_, ?_, ?_, ?_⟩
    · intro i hi
      exact absurd hi (Nat.not_lt_zero i)
    · intro i
      exact List.nodup_nil
    · intro i j a ha
      cases ha
    · intro a b hreq
      obtain ⟨e, he, -⟩ := hreq
      rw [List.isEmpty_iff.mp hempty] at he
      cases he
  next =>
    cases hes : config.edges with
    | error err =>
        rw [hes] at h
        cases h
    | ok es =>
        rw [hes] at h
        cases hsort : topologicalSort config.nodes.length es with
        | error what =>
            simp only [bind, Except.bind, hsort] at h
            cases h
        | ok order =>
            simp only [bind, Except.bind, hsort] at h
            cases h
            exact isQueue_levels hes (htopological _ _ _ hsort)

/-- A chain of requirements goes down through the levels. -/
theorem IsQueue.below_of_transGen {q : List (List Agent)} (h : IsQueue config q)
    {a b : String} (hab : Relation.TransGen config.Requires a b) : Below q a b := by
  induction hab with
  | single hreq => exact h.requires _ _ hreq
  | tail _ hreq ih =>
      obtain ⟨i, j, hij, hi, hj⟩ := ih
      obtain ⟨k, l, hkl, hk, hl⟩ := h.requires _ _ hreq
      have hjk := h.unique j k _ hj hk
      exact ⟨i, l, by omega, hi, hl⟩

end Levels

end Agents

end Gearbox
