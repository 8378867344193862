import Mathlib.Order.Bounds.Basic
import Gearbox.Agents.Queue

/-!
# The layers of the agents

`JobManager::job_queue` throws for a requirement that names no agent, for an agent that
requires itself, and for a cycle of requirements, and for nothing else. Otherwise the level
of an agent is the length of its longest chain of requirements. The counts of the nodes are
these lengths (`isGreatest_edgeCount`), and since a node with a count has a requirement with
the count before it, there is no gap between the keys of the map `group`.
-/

namespace Gearbox

namespace Agents

section Chains

variable {α β : Type*}

/-- A chain of `n` steps of the relation that ends in the value. -/
inductive Chain (r : α → α → Prop) : ℕ → α → Prop where
  | nil (a : α) : Chain r 0 a
  | cons {n : ℕ} {a b : α} (h : Chain r n a) (hab : r a b) : Chain r (n + 1) b

variable {r : α → α → Prop}

/-- A count that grows along the relation bounds the chains. -/
theorem Chain.le_count {n : ℕ} {a : α} (h : Chain r n a) {count : α → ℕ}
    (hlater : ∀ a b, r a b → count a < count b) : n ≤ count a := by
  induction h with
  | nil a => exact Nat.zero_le _
  | cons h hab ih =>
      have hlt := hlater _ _ hab
      omega

/-- Where every count has the one before it, there is a chain of this length. -/
theorem chain_count {count : α → ℕ} {S : α → Prop}
    (htight : ∀ b, S b → count b = 0 ∨ ∃ a, r a b ∧ S a ∧ count a + 1 = count b) {a : α}
    (ha : S a) : Chain r (count a) a := by
  generalize hn : count a = n
  induction n generalizing a with
  | zero => exact .nil a
  | succ n ih =>
      rcases htight a ha with hzero | ⟨b, hba, hb, hcount⟩
      · omega
      · exact .cons (ih hb (by omega)) hba

theorem not_transGen_self {count : α → ℕ} (hlater : ∀ a b, r a b → count a < count b)
    (a : α) : ¬ Relation.TransGen r a a := by
  have hlt : ∀ b, Relation.TransGen r a b → count a < count b := by
    intro b hab
    induction hab with
    | single hab => exact hlater _ _ hab
    | tail _ hbc ih => exact Nat.lt_trans ih (hlater _ _ hbc)
  exact fun haa => Nat.lt_irrefl _ (hlt a haa)

/-- A property that is inherited downwards is that of an initial segment. -/
theorem exists_filter_range {p : ℕ → Bool} (hdown : ∀ c, p (c + 1) → p c) (n : ℕ) :
    ∃ m, (List.range n).filter p = List.range m := by
  have hle : ∀ c, p c → ∀ d ≤ c, p d := by
    intro c
    induction c with
    | zero =>
        intro hc d hd
        rwa [Nat.le_zero.mp hd]
    | succ c ih =>
        intro hc d hd
        rcases Nat.le_succ_iff.mp hd with hd | rfl
        · exact ih (hdown c hc) d hd
        · exact hc
  induction n with
  | zero => exact ⟨0, rfl⟩
  | succ n ih =>
      by_cases hn : p n = true
      · refine ⟨n + 1, List.filter_eq_self.mpr fun c hc => hle n hn c ?_⟩
        exact Nat.le_of_lt_succ (List.mem_range.mp hc)
      · obtain ⟨m, hm⟩ := ih
        refine ⟨m, ?_⟩
        rw [List.range_succ, List.filter_append, hm, List.filter_singleton,
          Bool.eq_false_iff.mpr hn, cond_false, List.append_nil]

end Chains

section Counts

variable {es : List (ℕ × ℕ)}

/-- The relation of the edges. -/
def Edge (es : List (ℕ × ℕ)) (k i : ℕ) : Prop :=
  (k, i) ∈ es

/-- A node that was placed has no count, or one more than a node before it. -/
def Tight (es : List (ℕ × ℕ)) (done : List ℕ) (g : Grouping) : Prop :=
  ∀ v ∈ done, g.edgeCount v = 0 ∨ ∃ k, (k, v) ∈ es ∧ g.edgeCount k + 1 = g.edgeCount v

theorem foldl_max_mem {xs : List ℕ} (h : xs ≠ []) : xs.foldl max 0 ∈ xs := by
  induction xs using List.reverseRecOn with
  | nil => exact absurd rfl h
  | append_singleton xs x ih =>
      rw [List.foldl_append, List.foldl_cons, List.foldl_nil]
      rcases Nat.le_total (xs.foldl max 0) x with hle | hle
      · rw [max_eq_right hle]
        simp
      · rw [max_eq_left hle]
        by_cases hxs : xs = []
        · subst hxs
          have hx : x = 0 := Nat.le_zero.mp hle
          simp [hx]
        · exact List.mem_append_left _ (ih hxs)

theorem Tight.place {done : List ℕ} {g : Grouping} (h : Placed es done g)
    (htight : Tight es done g) {v : ℕ} (hv : v ∉ done)
    (hdeps : ∀ k, (k, v) ∈ es → k ∈ done) : Tight es (done ++ [v]) (g.place es v) := by
  have hne : ∀ u ∈ done, u ≠ v := by
    rintro u hu rfl
    exact hv hu
  by_cases hin : inEdges es v = []
  · rw [Grouping.place, if_pos hin]
    intro u hu
    rcases List.mem_append.mp hu with hu | hu
    · exact htight u hu
    · exact .inl (List.mem_singleton.mp hu ▸ h.fresh v hv)
  · rw [Grouping.place, if_neg hin]
    intro u hu
    rcases List.mem_append.mp hu with hu | hu
    · rcases htight u hu with hzero | ⟨k, hk, hcount⟩
      · exact .inl (by simpa only [Function.update_of_ne (hne u hu)] using hzero)
      · refine .inr ⟨k, hk, ?_⟩
        have hkdone := h.closed (k, u) hk hu
        simpa only [Function.update_of_ne (hne u hu), Function.update_of_ne (hne k hkdone)]
          using hcount
    · rw [List.mem_singleton.mp hu]
      have hmap : (inEdges es v).map g.edgeCount ≠ [] := by simpa using hin
      obtain ⟨k, hk, hcount⟩ := List.mem_map.mp (foldl_max_mem hmap)
      have hkv := mem_inEdges.mp hk
      refine .inr ⟨k, hkv, ?_⟩
      simp only [Function.update_of_ne (hne k (hdeps k hkv)), Function.update_self, hcount]

theorem tight_grouping {order : List ℕ} (hnodup : order.Nodup)
    (hordered : ∀ pre i post, order = pre ++ i :: post → ∀ k, (k, i) ∈ es → k ∈ pre) :
    Tight es order (grouping es order) := by
  induction order using List.reverseRecOn with
  | nil =>
      intro v hv
      cases hv
  | append_singleton order v ih =>
      have hordered' : ∀ pre i post, order = pre ++ i :: post → ∀ k, (k, i) ∈ es → k ∈ pre :=
        fun pre i post heq =>
          hordered pre i (post ++ [v]) (by rw [heq, List.append_assoc, List.cons_append])
      have hnodup' := List.Nodup.of_append_left hnodup
      have hv : v ∉ order := by
        intro hmem
        exact List.disjoint_of_nodup_append hnodup hmem (by simp)
      rw [grouping, List.foldl_append]
      exact Tight.place (placed_grouping hnodup' hordered') (ih hnodup' hordered') hv
        (hordered order v [] rfl)

end Counts

section Graph

variable {config : AgentConfig} {es : List (ℕ × ℕ)}

/-- The agent is one of the configuration. -/
def AgentConfig.Defined (config : AgentConfig) (a : String) : Prop :=
  ∃ e ∈ config.entries, e.name = a

theorem exists_edge_iff {nodes : List Agent} {i : ℕ} {node req : String} :
    (∃ e, edge nodes i node req = .ok e) ↔
      ∃ k, k ≠ i ∧ nodes.findIdx? (fun j => req = j.name) = some k := by
  rw [edge]
  cases nodes.findIdx? fun j => req = j.name with
  | none => simp
  | some k =>
      by_cases hik : i = k
      · simp [hik]
      · have hki : k ≠ i := fun heq => hik heq.symm
        simp [hik, hki]

theorem nodes_of_entries {i : ℕ} {e : AgentEntry} (he : config.entries[i]? = some e) :
    config.nodes[i]? = some e.job := by
  rw [nodes_getElem?, he, Option.map_some]

/-- A name belongs to one entry only. -/
theorem entry_index_inj {i j : ℕ} {e e' : AgentEntry} (he : config.entries[i]? = some e)
    (he' : config.entries[j]? = some e') (hname : e.name = e'.name) : i = j :=
  index_eq_of_name_eq (nodes_of_entries he) (nodes_of_entries he') hname

theorem name_of_findIdx? {i : ℕ} {a : String}
    (h : config.nodes.findIdx? (fun j => a = j.name) = some i) :
    ∃ e, config.entries[i]? = some e ∧ e.name = a := by
  obtain ⟨hlt, hname, -⟩ := List.findIdx?_eq_some_iff_getElem.mp h
  have hnode := List.getElem?_eq_getElem hlt
  rw [nodes_getElem?] at hnode
  obtain ⟨e, he, hjob⟩ := Option.map_eq_some_iff.mp hnode
  rw [← hjob] at hname
  exact ⟨e, he, (of_decide_eq_true hname).symm⟩

theorem findIdx?_name {i : ℕ} {a : String} :
    config.nodes.findIdx? (fun j => a = j.name) = some i ↔
      ∃ e, config.entries[i]? = some e ∧ e.name = a := by
  refine ⟨name_of_findIdx?, ?_⟩
  rintro ⟨e, he, rfl⟩
  cases hfind : config.nodes.findIdx? fun j => e.name = j.name with
  | none =>
      rw [List.findIdx?_eq_none_iff] at hfind
      have hjob : e.job ∈ config.nodes := List.mem_of_getElem? (nodes_of_entries he)
      exact absurd rfl (of_decide_eq_false (hfind _ hjob))
  | some j =>
      obtain ⟨e', he', hname⟩ := name_of_findIdx? hfind
      rw [entry_index_inj he' he hname]

/-- The edges can be made if every requirement names another agent. -/
theorem exists_edges_iff : (∃ es, config.edges = .ok es) ↔
    ∀ a b, config.Requires a b → config.Defined a ∧ a ≠ b := by
  have hedge : ∀ i e, config.entries[i]? = some e → ∀ a,
      (∃ x, edge config.nodes i e.name a = .ok x) ↔ config.Defined a ∧ a ≠ e.name := by
    intro i e he a
    simp only [exists_edge_iff, findIdx?_name]
    constructor
    · rintro ⟨k, hki, e', he', rfl⟩
      refine ⟨⟨e', List.mem_of_getElem? he', rfl⟩, fun hname => hki ?_⟩
      exact entry_index_inj he' he hname
    · rintro ⟨⟨e', hmem, rfl⟩, hne⟩
      obtain ⟨k, hk⟩ := List.getElem?_of_mem hmem
      refine ⟨k, ?_, e', hk, rfl⟩
      rintro rfl
      rw [hk] at he
      cases he
      exact hne rfl
  constructor
  · rintro ⟨es, hes⟩ a b ⟨e, he, rfl, ha⟩
    obtain ⟨i, hi⟩ := List.getElem?_of_mem he
    obtain ⟨ess, hess, -⟩ := Refinement.bind_eq_ok.mp hes
    have hmem : (e, i) ∈ config.entries.zipIdx := List.mem_zipIdx_iff_getElem?.mpr hi
    obtain ⟨es', -, hto⟩ := Refinement.exists_of_mapM hess hmem
    obtain ⟨x, -, hx⟩ := Refinement.exists_of_mapM hto ha
    exact (hedge i e hi a).mp ⟨x, hx⟩
  · intro hall
    have hto : ∀ x ∈ config.entries.zipIdx, ∃ es, config.edgesTo x = .ok es := by
      rintro ⟨e, i⟩ hx
      have hi := List.mem_zipIdx_iff_getElem?.mp hx
      refine Refinement.exists_mapM fun a ha => ?_
      exact (hedge i e hi a).mpr (hall a e.name ⟨e, List.mem_of_getElem? hi, rfl, ha⟩)
    obtain ⟨ess, hess⟩ := Refinement.exists_mapM hto
    refine ⟨ess.flatten, ?_⟩
    rw [AgentConfig.edges, hess]
    rfl

/-- The edges are the requirements. -/
theorem mem_edges_iff (hes : config.edges = .ok es) {k i : ℕ} : (k, i) ∈ es ↔
    ∃ e e', config.entries[k]? = some e ∧ config.entries[i]? = some e' ∧
      e.name ∈ e'.require := by
  constructor
  · intro hmem
    obtain ⟨ess, hess, hflatten⟩ := Refinement.bind_eq_ok.mp hes
    cases hflatten
    obtain ⟨es', hes', hmem⟩ := List.mem_flatten.mp hmem
    obtain ⟨⟨e', i'⟩, hx, hto⟩ := Refinement.exists_mem_of_mapM hess hes'
    obtain ⟨a, ha, hedge⟩ := Refinement.exists_mem_of_mapM hto hmem
    obtain ⟨htarget, hsource⟩ := edge_ok hedge
    obtain ⟨b, hb, hname⟩ := Option.map_eq_some_iff.mp hsource
    rw [nodes_getElem?] at hb
    obtain ⟨e, he, rfl⟩ := Option.map_eq_some_iff.mp hb
    refine ⟨e, e', he, ?_, ?_⟩
    · have hi : i = i' := htarget
      rw [hi]
      exact List.mem_zipIdx_iff_getElem?.mp hx
    · have hnamed : e.name = a := hname
      rw [hnamed]
      exact ha
  · rintro ⟨e, e', he, he', hreq⟩
    obtain ⟨k', hk', hname⟩ := mem_edges hes he' hreq
    obtain ⟨b, hb, hbname⟩ := Option.map_eq_some_iff.mp hname
    rwa [index_eq_of_name_eq (nodes_of_entries he) hb hbname.symm]

/-- An agent requires another one if there is an edge between them. -/
theorem requires_iff_edge (hes : config.edges = .ok es) {k i : ℕ} {e e' : AgentEntry}
    (he : config.entries[k]? = some e) (he' : config.entries[i]? = some e') :
    config.Requires e.name e'.name ↔ Edge es k i := by
  rw [Edge, mem_edges_iff hes]
  constructor
  · rintro ⟨e₁, he₁, hname, hreq⟩
    obtain ⟨i₁, hi₁⟩ := List.getElem?_of_mem he₁
    have hsame := entry_index_inj hi₁ he' hname
    rw [hsame, he'] at hi₁
    cases hi₁
    exact ⟨e, e', he, he', hreq⟩
  · rintro ⟨e₁, e₁', he₁, he₁', hreq⟩
    rw [he] at he₁
    rw [he'] at he₁'
    cases he₁
    cases he₁'
    exact ⟨e', List.mem_of_getElem? he', rfl, hreq⟩

/-- The agents along the edges. -/
theorem exists_edge_of_requires (hes : config.edges = .ok es) {a b : String}
    (h : config.Requires a b) : ∃ k i e e', config.entries[k]? = some e ∧ e.name = a ∧
      config.entries[i]? = some e' ∧ e'.name = b ∧ Edge es k i := by
  obtain ⟨hdefined, -⟩ := exists_edges_iff.mp ⟨es, hes⟩ a b h
  obtain ⟨e, he, rfl⟩ := hdefined
  obtain ⟨k, hk⟩ := List.getElem?_of_mem he
  obtain ⟨e', he', rfl, -⟩ := id h
  obtain ⟨i, hi⟩ := List.getElem?_of_mem he'
  exact ⟨k, i, e, e', hk, rfl, hi, rfl, (requires_iff_edge hes hk hi).mp h⟩

theorem chain_requires_iff (hes : config.edges = .ok es) {n i : ℕ} {e : AgentEntry}
    (he : config.entries[i]? = some e) :
    Chain config.Requires n e.name ↔ Chain (Edge es) n i := by
  constructor
  · intro hchain
    generalize hname : e.name = a at hchain
    induction hchain generalizing i e with
    | nil a => exact .nil i
    | cons hchain hab ih =>
        obtain ⟨k, i', e₁, e', hk, rfl, hi', rfl, hedge⟩ := exists_edge_of_requires hes hab
        rw [entry_index_inj he hi' hname]
        exact .cons (ih hk rfl) hedge
  · intro hchain
    induction hchain generalizing e with
    | nil i => exact .nil e.name
    | cons hchain hedge ih =>
        obtain ⟨e₁, e', hk, hi, hreq⟩ := (mem_edges_iff hes).mp hedge
        rw [he] at hi
        cases hi
        exact .cons (ih hk) ⟨e, List.mem_of_getElem? he, rfl, hreq⟩

/-- There is a cycle of agents if there is one of nodes. -/
theorem cycle_iff (hes : config.edges = .ok es) :
    (∃ a, Relation.TransGen config.Requires a a) ↔ ∃ v, Relation.TransGen (Edge es) v v := by
  constructor
  · rintro ⟨a, haa⟩
    have hpath : ∀ b, Relation.TransGen config.Requires a b → ∃ k i e e',
        config.entries[k]? = some e ∧ e.name = a ∧ config.entries[i]? = some e' ∧
          e'.name = b ∧ Relation.TransGen (Edge es) k i := by
      intro b hab
      induction hab with
      | single hab =>
          obtain ⟨k, i, e, e', hk, ha, hi, hb, hedge⟩ := exists_edge_of_requires hes hab
          exact ⟨k, i, e, e', hk, ha, hi, hb, .single hedge⟩
      | tail _ hbc ih =>
          obtain ⟨k, i, e, e', hk, ha, hi, hb, hpath⟩ := ih
          obtain ⟨i₁, j, e₁, e₂, hi₁, hb₁, hj, hc, hedge⟩ := exists_edge_of_requires hes hbc
          have hsame := entry_index_inj hi hi₁ (hb.trans hb₁.symm)
          subst hsame
          exact ⟨k, j, e, e₂, hk, ha, hj, hc, hpath.tail hedge⟩
    obtain ⟨k, i, e, e', hk, ha, hi, hb, hpath⟩ := hpath a haa
    have hsame := entry_index_inj hk hi (ha.trans hb.symm)
    subst hsame
    exact ⟨k, hpath⟩
  · rintro ⟨v, hvv⟩
    have hpath : ∀ w, Relation.TransGen (Edge es) v w → ∀ e e', config.entries[v]? = some e →
        config.entries[w]? = some e' → Relation.TransGen config.Requires e.name e'.name := by
      intro w hvw
      induction hvw with
      | single hedge =>
          intro e e' he he'
          exact .single ((requires_iff_edge hes he he').mpr hedge)
      | tail _ hedge ih =>
          intro e e' he he'
          obtain ⟨e₁, -, he₁, -⟩ := (mem_edges_iff hes).mp hedge
          exact .tail (ih e e₁ he he₁) ((requires_iff_edge hes he₁ he').mpr hedge)
    obtain ⟨w, hedge, -⟩ := Relation.TransGen.head'_iff.mp hvv
    obtain ⟨e, -, he, -⟩ := (mem_edges_iff hes).mp hedge
    exact ⟨e.name, hpath v hvv e e he he⟩

end Graph

section Layers

variable {config : AgentConfig} {es : List (ℕ × ℕ)} {order : List ℕ}

/-- What the sort returns for a graph: a topological order, or an exception for a cycle. -/
def Sorts (n : ℕ) (es : List (ℕ × ℕ)) : Except String (List ℕ) → Prop
  | .ok order => IsTopologicalOrder n es order
  | .error _ => ∃ v, Relation.TransGen (Edge es) v v

theorem mem_order (horder : IsTopologicalOrder config.nodes.length es order) {i : ℕ}
    {e : AgentEntry} (he : config.entries[i]? = some e) : i ∈ order := by
  obtain ⟨hlt, -⟩ := List.getElem?_eq_some_iff.mp (nodes_of_entries he)
  exact horder.perm.mem_iff.mpr (List.mem_range.mpr hlt)

theorem placed_of_order (horder : IsTopologicalOrder config.nodes.length es order) :
    Placed es order (grouping es order) :=
  placed_grouping (horder.perm.nodup_iff.mpr List.nodup_range) horder.ordered

theorem tight_of_order (horder : IsTopologicalOrder config.nodes.length es order) :
    Tight es order (grouping es order) :=
  tight_grouping (horder.perm.nodup_iff.mpr List.nodup_range) horder.ordered

theorem edgeCount_lt (hes : config.edges = .ok es)
    (horder : IsTopologicalOrder config.nodes.length es order) (k i : ℕ) (h : Edge es k i) :
    (grouping es order).edgeCount k < (grouping es order).edgeCount i := by
  obtain ⟨_, _, -, hi, -⟩ := (mem_edges_iff hes).mp h
  exact (placed_of_order horder).later (k, i) h (mem_order horder hi)

/-- The count of a node is the length of its longest chain. -/
theorem isGreatest_edgeCount (hes : config.edges = .ok es)
    (horder : IsTopologicalOrder config.nodes.length es order) {i : ℕ} (hi : i ∈ order) :
    IsGreatest {n | Chain (Edge es) n i} ((grouping es order).edgeCount i) := by
  constructor
  · refine chain_count (S := fun v => v ∈ order) ?_ hi
    intro v hv
    rcases tight_of_order horder v hv with hzero | ⟨k, hk, hcount⟩
    · exact .inl hzero
    · exact .inr ⟨k, hk, (placed_of_order horder).closed (k, v) hk hv, hcount⟩
  · intro n hn
    exact hn.le_count (edgeCount_lt hes horder)

/-- There is no gap between the keys of the groups. -/
theorem keys_eq_range (horder : IsTopologicalOrder config.nodes.length es order) :
    ∃ m, (grouping es order).keys order = List.range m := by
  have hplaced := placed_of_order horder
  refine exists_filter_range ?_ _
  intro c hc
  obtain ⟨v, hv⟩ := List.exists_mem_of_ne_nil _ (of_decide_eq_true hc)
  rw [hplaced.group, List.mem_filter] at hv
  have hcount : (grouping es order).edgeCount v = c + 1 := of_decide_eq_true hv.2
  rcases tight_of_order horder v hv.1 with hzero | ⟨k, hk, hk'⟩
  · omega
  · refine decide_eq_true (List.ne_nil_of_mem (a := k) ?_)
    rw [hplaced.group, List.mem_filter]
    exact ⟨hplaced.closed (k, v) hk hv.1, decide_eq_true (by omega)⟩

/-- The levels of a queue: every agent stands in one level, no level is empty, the level of an
agent is the length of its longest chain of requirements, and everything that it requires is
in a level before. -/
structure IsLayered (config : AgentConfig) (q : List (List Agent)) : Prop where
  perm : q.flatten.Perm config.nodes
  nonempty : ∀ level ∈ q, level ≠ []
  longest : ∀ i a, a ∈ levelNames q i → IsGreatest {n | Chain config.Requires n a} i
  requires : ∀ a b, config.Requires a b → Below q a b

theorem longest_levels (hes : config.edges = .ok es)
    (horder : IsTopologicalOrder config.nodes.length es order) {i : ℕ} {a : String}
    (ha : a ∈ levelNames (levels config es order) i) :
    IsGreatest {n | Chain config.Requires n a} i := by
  obtain ⟨v, b, hv, hb, rfl, hkey⟩ := mem_levelNames (placed_of_order horder) ha
  obtain ⟨m, hm⟩ := keys_eq_range horder
  rw [hm] at hkey
  obtain ⟨hlt, hi⟩ := List.getElem?_eq_some_iff.mp hkey
  rw [List.getElem_range] at hi
  rw [nodes_getElem?] at hb
  obtain ⟨e, he, rfl⟩ := Option.map_eq_some_iff.mp hb
  have hsame : {n | Chain config.Requires n e.job.name} = {n | Chain (Edge es) n v} := by
    ext n
    exact chain_requires_iff hes he
  rw [hsame, hi]
  exact isGreatest_edgeCount hes horder hv

theorem mem_level_iff (horder : IsTopologicalOrder config.nodes.length es order) {b : Agent} :
    b ∈ (levels config es order).flatten ↔ b ∈ config.nodes := by
  constructor
  · intro hb
    obtain ⟨level, hlevel, hb⟩ := List.mem_flatten.mp hb
    obtain ⟨c, -, rfl⟩ := List.mem_map.mp hlevel
    obtain ⟨v, -, hnode⟩ := List.mem_filterMap.mp hb
    exact List.mem_of_getElem? hnode
  · intro hb
    obtain ⟨v, hv⟩ := List.getElem?_of_mem hb
    obtain ⟨hlt, -⟩ := List.getElem?_eq_some_iff.mp hv
    have hmem : v ∈ order := horder.perm.mem_iff.mpr (List.mem_range.mpr hlt)
    have hplaced := placed_of_order horder
    refine List.mem_flatten.mpr ⟨_, List.mem_map_of_mem
      (mem_levelNames_of_node hplaced hmem hv).1, List.mem_filterMap.mpr ⟨v, ?_, hv⟩⟩
    rw [hplaced.group, List.mem_filter]
    exact ⟨hmem, decide_eq_true rfl⟩

theorem nodup_nodes (config : AgentConfig) : config.nodes.Nodup := by
  have hkey := config.key
  rw [← nodes_names] at hkey
  exact hkey.of_map _

theorem IsQueue.nodup_flatten {q : List (List Agent)} (h : IsQueue config q) :
    q.flatten.Nodup := by
  have hlevel : ∀ {i : ℕ} {level}, q[i]? = some level →
      levelNames q i = level.map Agent.name := by
    intro i level hi
    rw [levelNames, List.getD_eq_getElem?_getD, hi, Option.getD_some]
  rw [List.nodup_flatten]
  constructor
  · intro level hmem
    obtain ⟨i, hi⟩ := List.getElem?_of_mem hmem
    have hnodup := h.nodup i
    rw [hlevel hi] at hnodup
    exact hnodup.of_map _
  · rw [List.pairwise_iff_getElem]
    intro i j hi hj hij b hbi hbj
    have hi' := hlevel (List.getElem?_eq_getElem hi)
    have hj' := hlevel (List.getElem?_eq_getElem hj)
    have hsame := h.unique i j b.name (hi' ▸ List.mem_map_of_mem hbi)
      (hj' ▸ List.mem_map_of_mem hbj)
    omega

theorem isLayered_levels (hes : config.edges = .ok es)
    (horder : IsTopologicalOrder config.nodes.length es order) :
    IsLayered config (levels config es order) where
  perm := by
    have hqueue := isQueue_levels hes horder
    rw [List.perm_ext_iff_of_nodup hqueue.nodup_flatten (nodup_nodes config)]
    exact fun b => mem_level_iff horder
  nonempty := by
    intro level hlevel hempty
    have hqueue := isQueue_levels hes horder
    obtain ⟨i, hi⟩ := List.getElem?_of_mem hlevel
    obtain ⟨hlt, -⟩ := List.getElem?_eq_some_iff.mp hi
    refine hqueue.nonempty i hlt ?_
    rw [levelNames, List.getD_eq_getElem?_getD, hi, Option.getD_some, hempty]
    rfl
  longest := fun _ _ => longest_levels hes horder
  requires := (isQueue_levels hes horder).requires

/-- What makes `job_queue` throw. -/
def AgentConfig.Faulty (config : AgentConfig) : Prop :=
  (∃ a b, config.Requires a b ∧ ¬ config.Defined a) ∨ (∃ a, config.Requires a a) ∨
    ∃ a, Relation.TransGen config.Requires a a

theorem faulty_of_edges_error {err : Error} (h : config.edges = .error err) :
    config.Faulty := by
  have hnone : ¬ ∃ es, config.edges = .ok es := by
    rintro ⟨es, hes⟩
    rw [h] at hes
    cases hes
  rw [exists_edges_iff] at hnone
  simp only [not_forall, not_and_or, not_not] at hnone
  obtain ⟨a, b, hreq, hundefined | rfl⟩ := hnone
  · exact .inl ⟨a, b, hreq, hundefined⟩
  · exact .inr (.inl ⟨a, hreq⟩)

theorem faulty_iff_cycle (hes : config.edges = .ok es) :
    config.Faulty ↔ ∃ v, Relation.TransGen (Edge es) v v := by
  have hall := exists_edges_iff.mp ⟨es, hes⟩
  rw [← cycle_iff hes]
  constructor
  · rintro (⟨a, b, hreq, hundefined⟩ | ⟨a, hreq⟩ | hcycle)
    · exact absurd (hall a b hreq).1 hundefined
    · exact absurd rfl (hall a a hreq).2
    · exact hcycle
  · exact fun hcycle => .inr (.inr hcycle)

theorem not_faulty_of_empty (h : config.entries = []) : ¬ config.Faulty := by
  have hnone : ∀ a b, ¬ config.Requires a b := by
    rintro a b ⟨e, he, -⟩
    rw [h] at he
    cases he
  rintro (⟨a, b, hreq, -⟩ | ⟨a, hreq⟩ | ⟨a, hcycle⟩)
  · exact hnone a b hreq
  · exact hnone a a hreq
  · obtain ⟨b, hreq, -⟩ := Relation.TransGen.head'_iff.mp hcycle
    exact hnone a b hreq

theorem isLayered_nil (h : config.entries = []) : IsLayered config [] where
  perm := by
    rw [AgentConfig.nodes, h]
    exact .nil
  nonempty := fun level hlevel => (nomatch hlevel)
  longest := fun i a ha => (nomatch ha)
  requires := by
    rintro a b ⟨e, he, -⟩
    rw [h] at he
    cases he

/-- `job_queue` throws if and only if a requirement names no agent, an agent requires itself,
or the requirements have a cycle. Otherwise its levels are the layers of the agents. -/
theorem jobQueue_layers {topologicalSort : ℕ → List (ℕ × ℕ) → Except String (List ℕ)}
    (hsort : ∀ es, config.edges = .ok es →
      Sorts config.nodes.length es (topologicalSort config.nodes.length es)) :
    ((∃ err, jobQueue topologicalSort config = .error err) ↔ config.Faulty) ∧
    ∀ q, jobQueue topologicalSort config = .ok q → IsLayered config q := by
  rw [jobQueue]
  by_cases hempty : config.entries.isEmpty
  · rw [if_pos hempty]
    have hnil := List.isEmpty_iff.mp hempty
    refine ⟨⟨?_, fun hfaulty => absurd hfaulty (not_faulty_of_empty hnil)⟩, ?_⟩
    · rintro ⟨err, herr⟩
      cases herr
    · rintro q hq
      cases hq
      exact isLayered_nil hnil
  · rw [if_neg hempty]
    cases hes : config.edges with
    | error err =>
        refine ⟨⟨fun _ => faulty_of_edges_error hes, fun _ => ⟨err, rfl⟩⟩, ?_⟩
        rintro q hq
        cases hq
    | ok es =>
        have hsorts := hsort es hes
        rw [Refinement.ok_bind, faulty_iff_cycle hes]
        cases hresult : topologicalSort config.nodes.length es with
        | error what =>
            rw [hresult] at hsorts
            refine ⟨⟨fun _ => hsorts, fun _ => ⟨_, rfl⟩⟩, ?_⟩
            rintro q hq
            cases hq
        | ok order =>
            rw [hresult] at hsorts
            refine ⟨⟨?_, ?_⟩, ?_⟩
            · rintro ⟨err, herr⟩
              cases herr
            · rintro ⟨v, hcycle⟩
              exact absurd hcycle (not_transGen_self (edgeCount_lt hes hsorts) v)
            · rintro q hq
              cases hq
              exact isLayered_levels hes hsorts

end Layers

end Agents

end Gearbox
