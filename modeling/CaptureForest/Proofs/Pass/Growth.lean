import CaptureForest.Proofs.View.EdgeLists
import CaptureForest.Pass.State

/-! # Growth of a pass

Nodes and edges are only ever added behind the others, with two exceptions: a command buffer takes
over what stands before it, and the buffers of a submit are sorted at its end. `Pass.Adds` says
exactly what is added, edge by edge, and `Pass.context` is everything else that a pass knows.

The lemmas on the actions below say what each of them adds; they ask only that all nodes that are
named exist. -/

namespace CaptureForest

namespace Views

variable {α β : Type} {vs : Views α} {v w : View}

@[simp]
theorem get_replicate {a : α} : (replicate a).get v = a := by cases v <;> rfl

@[simp]
theorem get_map {f : α → β} : (vs.map f).get v = f (vs.get v) := by cases v <;> rfl

theorem get_set {a : α} : (vs.set w a).get v = if v = w then a else vs.get v := by
  cases v <;> cases w <;> rfl

@[simp]
theorem set_set {a b : α} : (vs.set v a).set v b = vs.set v b := by cases v <;> rfl

end Views

/-! ## Kinds of nodes -/

namespace Nodes

variable {nodes : Nodes} {new : List Node} {n : Nat} {k : NodeKind}

/-- What a node stands for. -/
def kind? (nodes : Nodes) (n : Nat) : Option NodeKind := nodes[n]?.map (·.kind)

theorem kind?_lt (h : nodes.kind? n = some k) : n < nodes.size := by
  obtain ⟨node, hn, -⟩ := Option.map_eq_some_iff.mp h
  exact (Array.getElem?_eq_some_iff.mp hn).1

theorem getElem?_append_old (hn : n < nodes.size) : (nodes ++ new)[n]? = nodes[n]? := by
  rw [← Array.getElem?_toList, Array.toList_appendList,
    List.getElem?_append_left (by simpa using hn), Array.getElem?_toList]

theorem getElem?_append_new (i : Nat) : (nodes ++ new)[nodes.size + i]? = new[i]? := by
  rw [← Array.getElem?_toList, Array.toList_appendList, List.getElem?_append_right (by simp)]
  simp

@[simp]
theorem size_append_list : (nodes ++ new).size = nodes.size + new.length := by
  rw [← Array.length_toList, Array.toList_appendList, List.length_append, Array.length_toList]

theorem append_append_list {more : List Node} : nodes ++ new ++ more = nodes ++ (new ++ more) :=
  Array.ext' (by simp)

theorem kind?_append (h : nodes.kind? n = some k) : Nodes.kind? (nodes ++ new) n = some k := by
  rw [kind?, getElem?_append_old (kind?_lt h)]
  exact h

theorem kind?_append_new (i : Nat) :
    Nodes.kind? (nodes ++ new) (nodes.size + i) = new[i]?.map (·.kind) := by
  rw [kind?, getElem?_append_new]

/-- A node of a kind that no new node has was there before. -/
theorem kind?_of_append (hnew : ∀ node ∈ new, node.kind ≠ k)
    (hn : Nodes.kind? (nodes ++ new) n = some k) : nodes.kind? n = some k := by
  rcases Nat.lt_or_ge n nodes.size with hlt | hge
  · rwa [kind?, getElem?_append_old hlt] at hn
  · obtain ⟨i, rfl⟩ := Nat.exists_eq_add_of_le hge
    rw [kind?_append_new] at hn
    obtain ⟨node, hi, hk⟩ := Option.map_eq_some_iff.mp hn
    exact absurd hk (hnew node (List.mem_of_getElem? hi))

theorem getElem?_append_head {node : Node} : (nodes ++ node :: new)[nodes.size]? = some node :=
  getElem?_append_new 0

theorem kind?_append_head {node : Node} :
    Nodes.kind? (nodes ++ node :: new) nodes.size = some node.kind :=
  kind?_append_new 0

end Nodes

/-! ## Edges of all views -/

/-- Edges for each of the views. -/
def Links := View → EdgeLog

namespace Links

/-- No edges. -/
def none : Links := fun _ => []

/-- The same edges for some of the views. -/
def on (views : List View) (log : EdgeLog) : Links := fun v => if v ∈ views then log else []

instance : Append Links := ⟨fun l l' v => l v ++ l' v⟩

variable {l l' l'' : Links} {views : List View} {log more : EdgeLog} {v : View}

@[simp]
theorem none_apply : none v = [] := rfl

@[simp]
theorem append_apply : (l ++ l') v = l v ++ l' v := rfl

theorem not_mem_none {e : Nat × Nat} : e ∉ none v := List.not_mem_nil

theorem on_apply : on views log v = if v ∈ views then log else [] := rfl

@[simp]
theorem none_append : none ++ l = l := rfl

@[simp]
theorem append_none : l ++ none = l := funext fun v => List.append_nil (l v)

theorem on_append : on views log ++ on views more = on views (log ++ more) :=
  funext fun v => by
    simp only [append_apply, on_apply]
    split <;> simp

@[simp]
theorem on_nil (views : List View) : on views [] = none := funext fun v => by simp [on_apply]

theorem mem_on {e : Nat × Nat} : e ∈ on views log v ↔ v ∈ views ∧ e ∈ log := by
  rw [on_apply]
  split <;> simp_all

end Links

namespace Pass

variable {p q r : Pass}

/-- The children that a node owns in a view. -/
def owned (p : Pass) (v : View) (n : Nat) : List Nat := ((p.edges.get v).owned n).toList

/-- The children that a node shares in a view. -/
def shared (p : Pass) (v : View) (n : Nat) : List Nat := ((p.edges.get v).shared n).toList

/-- What a pass knows beside its nodes and edges. -/
def context (p : Pass) : Pass := { p with nodes := #[], edges := .replicate #[] }

/-- All views have all nodes. -/
def Sized (p : Pass) : Prop := ∀ v, (p.edges.get v).size = p.nodes.size

/-- A node that is not there owns nothing. -/
theorem Sized.owned_eq_nil {v : View} {n : Nat} (h : p.Sized) (hn : p.nodes.size ≤ n) :
    p.owned v n = [] := by
  rw [owned, EdgeLists.owned, Array.getElem?_eq_none (h v ▸ hn)]
  rfl

/-- A node that is not there shares nothing. -/
theorem Sized.shared_eq_nil {v : View} {n : Nat} (h : p.Sized) (hn : p.nodes.size ≤ n) :
    p.shared v n = [] := by
  rw [shared, EdgeLists.shared, Array.getElem?_eq_none (h v ▸ hn)]
  rfl

/-- The pass `q` has the nodes `new` and the given edges behind those of `p`. -/
structure Adds (p q : Pass) (new : List Node) (owned shared : Links) : Prop where
  nodes : q.nodes = p.nodes ++ new
  sized : q.Sized
  owned : ∀ v n, q.owned v n = p.owned v n ++ (owned v).children n
  shared : ∀ v n, q.shared v n = p.shared v n ++ (shared v).children n

namespace Adds

variable {new more : List Node} {owned owned' shared shared' : Links} {n : Nat} {k : NodeKind}

theorem refl (h : p.Sized) : p.Adds p [] .none .none where
  nodes := Array.appendList_nil.symm
  sized := h
  owned := by simp
  shared := by simp

theorem trans (h : p.Adds q new owned shared) (h' : q.Adds r more owned' shared') :
    p.Adds r (new ++ more) (owned ++ owned') (shared ++ shared') where
  nodes := by rw [h'.nodes, h.nodes, Nodes.append_append_list]
  sized := h'.sized
  owned v n := by simp [h'.owned, h.owned]
  shared v n := by simp [h'.shared, h.shared]

/-- Neither side depends on the context. -/
theorem congr {s t : Pass} (h : p.Adds q new owned shared) (hp : s.nodes = p.nodes)
    (hpe : s.edges = p.edges) (hq : t.nodes = q.nodes) (hqe : t.edges = q.edges) :
    s.Adds t new owned shared where
  nodes := by rw [hq, hp, h.nodes]
  sized v := by rw [hqe, hq]; exact h.sized v
  owned v n := by simp only [Pass.owned, hqe, hpe]; exact h.owned v n
  shared v n := by simp only [Pass.shared, hqe, hpe]; exact h.shared v n

theorem size (h : p.Adds q new owned shared) : q.nodes.size = p.nodes.size + new.length := by
  rw [h.nodes, Nodes.size_append_list]

theorem le_size (h : p.Adds q new owned shared) : p.nodes.size ≤ q.nodes.size :=
  h.size ▸ Nat.le_add_right _ _

theorem getElem? (h : p.Adds q new owned shared) (hn : n < p.nodes.size) :
    q.nodes[n]? = p.nodes[n]? := by
  rw [h.nodes, Nodes.getElem?_append_old hn]

theorem kind? (h : p.Adds q new owned shared) (hk : p.nodes.kind? n = some k) :
    q.nodes.kind? n = some k := by
  rw [h.nodes]; exact Nodes.kind?_append hk

theorem kind?_new (h : p.Adds q new owned shared) (i : Nat) :
    q.nodes.kind? (p.nodes.size + i) = new[i]?.map (·.kind) := by
  rw [h.nodes, Nodes.kind?_append_new]

end Adds

/-! ## Single actions -/

theorem addNode_succeeds (h : p.Sized) (node : Node) :
    Succeeds (addNode node) p fun n q =>
      n = p.nodes.size ∧ p.Adds q [node] .none .none ∧ q.context = p.context := by
  refine Leads.intro rfl ⟨rfl, ⟨by simp, fun v => ?_, fun v n => ?_, fun v n => ?_⟩, rfl⟩
  · simp [h v]
  · simp [owned]
  · simp [shared]

theorem editEdges_succeeds {v : View} {edit : EdgeEdit Unit} {Q : EdgeLists → Prop}
    (h : Succeeds edit (p.edges.get v) fun _ g => Q g) :
    Succeeds (editEdges v edit) p fun _ q =>
      ∃ g, q = { p with edges := p.edges.set v g } ∧ Q g := by
  obtain ⟨_, g, hg, hQ⟩ := h.exists_ok
  refine Leads.intro (a := ()) ?_ ⟨g, rfl, hQ⟩
  unfold editEdges
  simp [hg]

/-- An edit that adds edges, made in each of some views. -/
theorem forM_editEdges_succeeds {views : List View} {edit : EdgeEdit Unit} {owned shared : EdgeLog}
    (h : p.Sized) (hnd : views.Nodup)
    (hedit : ∀ g : EdgeLists, g.size = p.nodes.size →
      Succeeds edit g fun _ g' => g.Gains g' owned shared) :
    Succeeds (views.forM fun v => editEdges v edit) p fun _ q =>
      p.Adds q [] (.on views owned) (.on views shared) ∧ q.context = p.context := by
  refine Leads.forM (I := fun done q =>
    p.Adds q [] (.on done owned) (.on done shared) ∧ q.context = p.context)
    ⟨.congr (.refl h) rfl rfl rfl rfl, rfl⟩ ?_
  rintro done v rest q hl ⟨hq, hctx⟩
  have hv : v ∉ done := fun hv => by
    rw [hl] at hnd
    exact (List.nodup_append.mp hnd).2.2 v hv v List.mem_cons_self rfl
  have hsize : q.nodes.size = p.nodes.size := by rw [hq.size]; rfl
  refine (editEdges_succeeds (hedit _ ((hq.sized v).trans hsize))).imp ?_
  rintro _ _ ⟨g, rfl, hg⟩
  refine ⟨⟨hq.nodes, fun w => ?_, fun w m => ?_, fun w m => ?_⟩, hctx⟩
  · rw [Views.get_set]
    split
    · rename_i hw; subst hw; rw [hg.size]; exact hq.sized w
    · exact hq.sized w
  · have := hq.owned w m
    by_cases hw : w = v
    · subst hw
      simpa [Pass.owned, Links.on_apply, hv, Views.get_set, hg.owned] using this
    · simpa [Pass.owned, Links.on_apply, hw, Views.get_set] using this
  · have := hq.shared w m
    by_cases hw : w = v
    · subst hw
      simpa [Pass.shared, Links.on_apply, hv, Views.get_set, hg.shared] using this
    · simpa [Pass.shared, Links.on_apply, hw, Views.get_set] using this

variable {views : List View} {node child : Nat}

theorem addOwned_succeeds (h : p.Sized) (hnd : views.Nodup) (hn : node < p.nodes.size)
    (hc : child < p.nodes.size) :
    Succeeds (addOwned views node child) p fun _ q =>
      p.Adds q [] (.on views [(node, child)]) .none ∧ q.context = p.context := by
  rw [← Links.on_nil views]
  exact forM_editEdges_succeeds h hnd fun g hg =>
    EdgeEdit.addOwned_succeeds (hg.symm ▸ hn) (hg.symm ▸ hc)

theorem addShared_succeeds (h : p.Sized) (hnd : views.Nodup) (hn : node < p.nodes.size)
    (hc : child < p.nodes.size) :
    Succeeds (addShared views node child) p fun _ q =>
      p.Adds q [] .none (.on views [(node, child)]) ∧ q.context = p.context := by
  rw [← Links.on_nil views]
  exact forM_editEdges_succeeds h hnd fun g hg =>
    EdgeEdit.addShared_succeeds (hg.symm ▸ hn) (hg.symm ▸ hc)

/-! ## Loops -/

/-- A loop whose rounds add edges and no nodes. -/
theorem forM_adds {α : Type} {l : List α} {f : α → PassM Unit} (views : List View)
    (owned shared : α → EdgeLog) (h : p.Sized)
    (hf : ∀ a ∈ l, ∀ q : Pass, q.Sized → q.nodes.size = p.nodes.size → Succeeds (f a) q fun _ r =>
      q.Adds r [] (.on views (owned a)) (.on views (shared a)) ∧ r.context = q.context) :
    Succeeds (l.forM f) p fun _ q =>
      p.Adds q [] (.on views (l.flatMap owned)) (.on views (l.flatMap shared)) ∧
        q.context = p.context := by
  refine Leads.forM (I := fun done q =>
    p.Adds q [] (.on views (done.flatMap owned)) (.on views (done.flatMap shared)) ∧
      q.context = p.context) ⟨by simpa using .refl h, rfl⟩ ?_
  rintro done a rest q hl ⟨hq, hctx⟩
  refine (hf a (by simp [hl]) q hq.sized (by rw [hq.size]; rfl)).imp ?_
  rintro _ r ⟨hr, hctx'⟩
  refine ⟨?_, hctx'.trans hctx⟩
  simpa only [List.flatMap_append, List.flatMap_singleton, Links.on_append, List.append_nil]
    using hq.trans hr

variable {α : Type} {l : List α} (edge : α → Nat × Nat)

theorem forM_addOwned_succeeds (h : p.Sized) (hnd : views.Nodup)
    (hl : ∀ a ∈ l, (edge a).1 < p.nodes.size ∧ (edge a).2 < p.nodes.size) :
    Succeeds (l.forM fun a => addOwned views (edge a).1 (edge a).2) p fun _ q =>
      p.Adds q [] (.on views (l.map edge)) .none ∧ q.context = p.context := by
  have := forM_adds views (fun a => [edge a]) (fun _ => []) h
    fun a ha q hq hsize => by
      rw [Links.on_nil]
      exact addOwned_succeeds hq hnd (hsize ▸ (hl a ha).1) (hsize ▸ (hl a ha).2)
  have hnil : l.flatMap (fun _ => ([] : EdgeLog)) = [] := List.flatMap_eq_nil_iff.mpr fun _ _ => rfl
  simpa only [hnil, Links.on_nil, List.map_eq_flatMap] using this

theorem forM_addShared_succeeds (h : p.Sized) (hnd : views.Nodup)
    (hl : ∀ a ∈ l, (edge a).1 < p.nodes.size ∧ (edge a).2 < p.nodes.size) :
    Succeeds (l.forM fun a => addShared views (edge a).1 (edge a).2) p fun _ q =>
      p.Adds q [] .none (.on views (l.map edge)) ∧ q.context = p.context := by
  have := forM_adds views (fun _ => []) (fun a => [edge a]) h
    fun a ha q hq hsize => by
      rw [Links.on_nil]
      exact addShared_succeeds hq hnd (hsize ▸ (hl a ha).1) (hsize ▸ (hl a ha).2)
  have hnil : l.flatMap (fun _ => ([] : EdgeLog)) = [] := List.flatMap_eq_nil_iff.mpr fun _ _ => rfl
  simpa only [hnil, Links.on_nil, List.map_eq_flatMap] using this

end Pass

end CaptureForest
