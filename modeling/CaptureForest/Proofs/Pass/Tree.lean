import CaptureForest.Proofs.Pass.Nested
import CaptureForest.Proofs.View.Branches

/-! # The tree of a pass

The view of all events is a tree whose leaves are the nodes that end runs of packets. It only grows
by new nodes, or by a command buffer that begins and takes leaves from elsewhere. -/

namespace CaptureForest

/-! ## Nodes that end runs -/

namespace Nodes

variable {nodes nodes' : Nodes} {new : List Node} {n : Nat}

/-- The node ends a run of packets. -/
def EndsRun (nodes : Nodes) (n : Nat) : Prop := ∃ k, nodes.kind? n = some k ∧ k.endsRun

theorem EndsRun.lt (h : nodes.EndsRun n) : n < nodes.size := by
  obtain ⟨_, hk, -⟩ := h
  exact kind?_lt hk

theorem EndsRun.of_append (h : nodes'.EndsRun n) (hnodes : nodes' = nodes ++ new)
    (hlt : n < nodes.size) : nodes.EndsRun n := by
  obtain ⟨k, hk, hends⟩ := h
  rw [kind?, hnodes, getElem?_append_old hlt] at hk
  exact ⟨k, hk, hends⟩

/-- Other new nodes are of no account. -/
theorem EndsRun.of_append_new (h : nodes'.EndsRun n) (hnodes : nodes' = nodes ++ new)
    (hnew : ∀ node ∈ new, node.kind.endsRun = false) : nodes.EndsRun n := by
  obtain ⟨k, hk, hends⟩ := h
  rw [hnodes] at hk
  refine ⟨k, kind?_of_append (fun node hnode heq => ?_) hk, hends⟩
  cases (hnew node hnode).symm.trans (heq ▸ hends)

theorem not_endsRun {k : NodeKind} (hk : nodes.kind? n = some k) (hends : k.endsRun = false) :
    ¬nodes.EndsRun n := by
  rintro ⟨k', hk', hends'⟩
  cases hk.symm.trans hk'
  cases hends.symm.trans hends'

end Nodes

/-! ## The tree of a pass -/

namespace Pass

variable {p q : Pass} {submit n c w : Nat} {node : Node}
  {new : List Node} {owned shared : Links} {moved : List Nat} {v : View}

/-- The events that wait for a command buffer to begin. -/
def waiting (p : Pass) : List Nat := p.beginEvents.toList.map (·.node)

namespace Sound

theorem inside (h : p.Sound) (hc : c ∈ p.owned v n) : n < p.nodes.size ∧ c < p.nodes.size := by
  obtain ⟨_, _, ha, hb, -⟩ := h.arranged.fits hc
  exact ⟨Nodes.kind?_lt ha, Nodes.kind?_lt hb⟩

theorem leaf (h : p.Sound) (hn : p.nodes.EndsRun n) (v : View) : p.owned v n = [] := by
  obtain ⟨k, hk, hends⟩ := hn
  refine List.eq_nil_iff_forall_not_mem.mpr fun c hc => ?_
  obtain ⟨a, b, ha, -, hab, -⟩ := h.arranged.fits hc
  cases hk.symm.trans ha
  exact View.not_owns_of_endsRun hends hab

theorem endsRun_of_mem_waiting (h : p.Sound) (hn : n ∈ p.waiting) : p.nodes.EndsRun n := by
  obtain ⟨e, he, rfl⟩ := List.mem_map.mp hn
  exact h.events e he

/-- New nodes are put below others. -/
theorem regrown (h : p.Sound) (hq : p.Adds q new owned shared)
    (hnew : ∀ e ∈ owned .allEvent, p.nodes.size ≤ e.2) :
    Regrown p.nodes.size [] (p.owned .allEvent) (q.owned .allEvent) where
  owned n := by
    refine ⟨(owned .allEvent).children n, ?_, fun c hc => ?_⟩
    · rw [hq.owned, List.filter_eq_self.mpr fun _ _ => decide_eq_true List.not_mem_nil]
    · exact .inl (hnew _ (EdgeLog.mem_children.mp hc))
  inside hc := h.inside hc
  leaf _ hx := by cases hx

/-- One new node is put below another and takes some events. -/
theorem grafted (h : p.Sound) (hw : w < p.nodes.size) (hw' : ¬p.nodes.EndsRun w)
    (hmoved : ∀ x ∈ moved, p.nodes.EndsRun x)
    (howned : ∀ n, q.owned .allEvent n = (p.owned .allEvent n).filter (· ∉ moved) ++
      EdgeLog.children ((w, p.nodes.size) :: moved.map (p.nodes.size, ·)) n) :
    Grafted p.nodes.size w moved (p.owned .allEvent) (q.owned .allEvent) := by
  have hmem {n c : Nat} : c ∈ q.owned .allEvent n ↔ (c ∈ p.owned .allEvent n ∧ c ∉ moved) ∨
      (n = w ∧ c = p.nodes.size) ∨ (n = p.nodes.size ∧ c ∈ moved) := by
    rw [howned, List.mem_append, List.mem_filter, EdgeLog.mem_children, List.mem_cons,
      Prod.mk.injEq, List.mem_map, decide_eq_true_eq]
    refine or_congr_right (or_congr_right ⟨?_, fun hand => ⟨c, hand.2, hand.1 ▸ rfl⟩⟩)
    rintro ⟨c', hc, heq⟩
    cases heq
    exact ⟨rfl, hc⟩
  have hnot {n : Nat} : p.nodes.size ∉ p.owned .allEvent n := fun hc =>
    Nat.lt_irrefl _ (h.inside hc).2
  have hlt {x : Nat} (hx : x ∈ moved) : x < p.nodes.size := (hmoved x hx).lt
  have hnil : p.owned .allEvent p.nodes.size = [] :=
    List.eq_nil_iff_forall_not_mem.mpr fun c hc => Nat.lt_irrefl _ (h.inside hc).1
  exact {
    owned := fun n => by
      refine ⟨_, howned n, fun c hc => ?_⟩
      rcases List.mem_cons.mp (EdgeLog.mem_children.mp hc) with heq | hc
      · exact .inl (Nat.le_of_eq (congrArg Prod.snd heq).symm)
      · obtain ⟨c', hc', heq⟩ := List.mem_map.mp hc
        cases heq
        exact .inr hc'
    inside := fun hc => h.inside hc
    leaf := fun x hx => h.leaf (hmoved x hx) .allEvent
    child := fun {n} => by
      rw [hmem]
      refine ⟨fun hc => ?_, fun hn => .inr (.inl ⟨hn, rfl⟩)⟩
      rcases hc with ⟨hc, -⟩ | ⟨hn, -⟩ | ⟨-, hc⟩
      · exact absurd hc hnot
      · exact hn
      · exact absurd (hlt hc) (Nat.lt_irrefl _)
    taken := by
      rw [howned, hnil, EdgeLog.children_cons, if_neg (Nat.ne_of_lt hw), EdgeLog.children_fan]
      rfl
    last := by
      refine ⟨(p.owned .allEvent w).filter (· ∉ moved), ?_⟩
      have hfan : EdgeLog.children (moved.map (p.nodes.size, ·)) w = [] := by
        refine List.eq_nil_iff_forall_not_mem.mpr fun c hc => ?_
        obtain ⟨_, -, heq⟩ := List.mem_map.mp (EdgeLog.mem_children.mp hc)
        exact Nat.ne_of_gt hw (congrArg Prod.fst heq)
      rw [howned, EdgeLog.children_cons, if_pos rfl, hfan]
    owner := hw
    owner_not_moved := fun hmem => hw' (hmoved w hmem)
    once := fun {n x} hx hc => by
      rcases hmem.mp hc with ⟨-, hnot⟩ | ⟨-, heq⟩ | ⟨hn, -⟩
      · exact absurd hx hnot
      · exact absurd (hlt hx) (heq ▸ Nat.lt_irrefl _)
      · exact hn }

/-- One new node is put below another. -/
theorem attached (h : p.Sound) (hw : w < p.nodes.size) (hw' : ¬p.nodes.EndsRun w)
    (howned : ∀ n, q.owned .allEvent n =
      p.owned .allEvent n ++ EdgeLog.children [(w, p.nodes.size)] n) :
    Grafted p.nodes.size w [] (p.owned .allEvent) (q.owned .allEvent) := by
  refine h.grafted hw hw' (List.forall_mem_nil _) fun n => ?_
  rw [howned, List.filter_eq_self.mpr fun _ _ => decide_eq_true List.not_mem_nil]
  rfl

/-- The marker of a command buffer that begins now takes the events that wait. -/
theorem takes (h : p.Sound) (hs : p.submit = some submit)
    (hq : p.Regroups q p.waiting [node]
      (takeover (p.bufferOwner submit) p.nodes.size p.waiting) shared) :
    Grafted p.nodes.size (p.bufferOwner submit) p.waiting (p.owned .allEvent)
      (q.owned .allEvent) := by
  obtain ⟨k, howner, hk⟩ := h.bufferOwner hs
  refine h.grafted (Nodes.kind?_lt howner) (Nodes.not_endsRun howner ?_)
    (fun x hx => h.endsRun_of_mem_waiting hx) fun n => ?_
  · rcases hk with rfl | rfl <;> rfl
  · rw [hq.owned, if_pos (by decide)]
    rfl

end Sound

end Pass

end CaptureForest
