import CaptureForest.Proofs.Pass.Apart
import CaptureForest.Proofs.Pass.Reach

/-! # Nodes that are complete

While a submit is walked, nodes are attached to it, to its buffers and to its markers, and to no
other node that was there before (`Pass.Turns.owned_eq`). The root and the engines get children where
a submit begins or ends, and all other nodes are complete when they are added
(`Pass.Change.owned_eq`). -/

namespace CaptureForest

/-- The kinds of nodes that others are attached to while a submit is walked. -/
def NodeKind.adopts : NodeKind → Bool
  | .submit | .ib | .marker => true
  | _ => false

theorem View.adopts_of_owns {v : View} {a b : NodeKind} (h : v.owns a b) (hb : b.endsRun) :
    a.adopts := by
  revert h hb
  cases v <;> cases a <;> cases b <;> decide

namespace Pass

variable {o : Options} {m : Reader} {index submit n : Nat} {x : Step} {v : View} {p q : Pass}
  {new : List Node} {owned shared : Links} {k : NodeKind}

/-- Edges from other nodes are not seen at a node. -/
theorem Adds.owned_eq (hq : p.Adds q new owned shared) (howned : ∀ e ∈ owned v, e.1 ≠ n) :
    q.owned v n = p.owned v n := by
  have hnil : (owned v).children n = [] :=
    List.eq_nil_iff_forall_not_mem.mpr fun c hc => howned (n, c) (EdgeLog.mem_children.mp hc) rfl
  rw [hq.owned, hnil, List.append_nil]

/-- A node of another kind gets a child. -/
theorem Adds.owned_eq_of_single {views : List View} {parent child : Nat} {a : NodeKind}
    (hq : p.Adds q new (.on views [(parent, child)]) shared)
    (hparent : p.nodes.kind? parent = some a) (hn : p.nodes.kind? n = some k) (hne : a ≠ k) :
    q.owned v n = p.owned v n := by
  refine hq.owned_eq fun e he => ?_
  cases List.mem_singleton.mp (Links.mem_on.mp he).2
  rintro rfl
  exact hne (Option.some.inj (hparent.symm.trans hn))

/-- What is attached to the innermost marker is not seen elsewhere. -/
theorem Adds.owned_eq_of_innermost {views : List View} {child : Nat}
    (hq : p.Adds q new (.on views [(p.innermost submit, child)]) shared) (hp : p.Sound)
    (hs : p.submit = some submit) (hn : p.nodes.kind? n = some k) (hk : ¬k.adopts) :
    q.owned v n = p.owned v n := by
  obtain ⟨a, ha, hor⟩ := hp.innermost hs
  refine hq.owned_eq_of_single ha hn ?_
  rintro rfl
  rcases hor with rfl | rfl <;> exact hk rfl

theorem Enters.owned_eq {ibIndex : Nat} {ib : IndirectBuffer} {kind : IbKind}
    (h : Enters o submit ibIndex ib kind p q) (hp : p.Sound) (hs : p.submit = some submit)
    (hn : p.nodes.kind? n = some k) (hk : ¬k.adopts) : q.owned v n = p.owned v n := by
  have hstart : (p.onEngine ib.constantEngine).Sound := { hp with stacked := { hp.stacked with } }
  obtain ⟨a, ha, hor⟩ := hstart.ibOwner hs o kind
  refine h.adds.owned_eq_of_single ha hn ?_
  rintro rfl
  rcases hor with rfl | rfl <;> exact hk rfl

theorem Works.owned_eq {op? : Option UInt8} {words : Array UInt32}
    (h : Works o submit op? words p q) (hp : p.Sound) (hs : p.submit = some submit)
    (hn : p.nodes.kind? n = some k) (hk : ¬k.adopts) : q.owned v n = p.owned v n := by
  cases h with
  | sync _ _ hq | event _ _ hq => exact hq.owned_eq_of_innermost hp hs hn hk
  | nothing => rfl

/-- A command buffer that begins takes nothing from such a node and gives nothing to it. -/
theorem Obeys.owned_eq {call : CallMarker} (h : Obeys o submit call p q) (hp : p.Sound)
    (hs : p.submit = some submit) (hn : p.nodes.kind? n = some k) (hk : ¬k.adopts) :
    q.owned v n = p.owned v n := by
  have hadds {r : Pass} {node : Node}
      (hr : p.Adds r [node] (.on View.withEvents [(p.callClosed.innermost submit, p.nodes.size)])
        .none) : r.owned v n = p.owned v n := by
    obtain ⟨a, ha, hor⟩ := hp.callClosed.innermost hs
    refine hr.owned_eq_of_single ha hn ?_
    rintro rfl
    rcases hor with rfl | rfl <;> exact hk rfl
  cases h with
  | beginsBuffer _ hq =>
    obtain ⟨a, ha, hor⟩ := hp.callClosed.bufferOwner hs
    have hnil : (takeover (p.callClosed.bufferOwner submit) p.nodes.size
        (p.beginEvents.toList.map (·.node)) v).children n = [] := by
      refine List.eq_nil_iff_forall_not_mem.mpr fun c hc => ?_
      rcases List.mem_cons.mp (Links.mem_on.mp (EdgeLog.mem_children.mp hc)).2 with heq | hmem
      · obtain ⟨rfl, -⟩ := Prod.mk.inj heq
        cases hn.symm.trans ha
        rcases hor with rfl | rfl <;> exact hk rfl
      · obtain ⟨_, -, heq⟩ := List.mem_map.mp hmem
        obtain ⟨rfl, -⟩ := Prod.mk.inj heq
        exact absurd (Nodes.kind?_lt hn) (Nat.lt_irrefl _)
    have hkeep : (p.owned v n).filter (· ∉ p.beginEvents.toList.map (·.node)) = p.owned v n := by
      refine List.filter_eq_self.mpr fun c hc => decide_eq_true fun hmoved => ?_
      obtain ⟨e, he, rfl⟩ := List.mem_map.mp hmoved
      obtain ⟨_, hc', hends⟩ := hp.events e he
      obtain ⟨a, b, ha, hb, howns, -⟩ := hp.arranged.fits hc
      cases hn.symm.trans ha
      cases hc'.symm.trans hb
      exact hk (View.adopts_of_owns howns hends)
    rw [hq.owned, hnil, List.append_nil, hkeep, ite_self]
  | endsBuffer _ hq | beginsLabel _ hq | insertsLabel _ hq | opensCall _ hq => exact hadds hq
  | endsLabel => rfl

/-- A step of a walk attaches nothing to other nodes that were there before. -/
theorem Turns.owned_eq (h : Turns o m index submit p x q) (hp : p.Sound)
    (hs : p.submit = some submit) (hn : p.nodes.kind? n = some k) (hk : ¬k.adopts) :
    q.owned v n = p.owned v n := by
  cases h with
  | enter hq => exact hq.owned_eq hp hs hn hk
  | leave =>
    obtain ⟨_, _, _, _, _, hleft⟩ := p.left_eq
    rw [hleft]
    rfl
  | skip => rfl
  | packet _ hq =>
    cases hq with
    | @works _ _ r s _ _ _ _ hr hw hshare =>
      have hsub := (congrArg Site.submit hr.site :).trans hs
      have hlogs := hr.owned_old (v := v) (Nodes.kind?_lt hn)
      have hworks := hw.owned_eq (v := v) (hr.sound hp) hsub (hr.adds.kind? hn) hk
      exact (hshare.adds.owned_eq nofun).trans (hworks.trans hlogs)
    | @obeys _ _ _ r s _ _ _ hr hobeys =>
      have hsub := (congrArg Site.submit hr.site :).trans hs
      have hlogs := hr.owned_old (v := v) (Nodes.kind?_lt hn)
      have hobeys := hobeys.owned_eq (v := v) (hr.sound hp).marked hsub (hr.adds.kind? hn) hk
      exact hobeys.trans hlogs

/-- Other than the root, the engines, the submits, the buffers and the markers, no node gets children
or loses them. -/
theorem Change.owned_eq (hc : p.Change q) (hp : p.Sound) (hn : p.nodes.kind? n = some k)
    (hk : ¬k.adopts) (hroot : k ≠ .root) (hengine : k ≠ .engine) :
    q.owned v n = p.owned v n := by
  have htop : p.nodes.kind? rootNode = some .root := hp.arranged.root.mpr rfl
  cases hc with
  | @submitBegins _ s _ engine _ he hq =>
    have hkind : p.nodes.kind? engine = some .engine := by
      obtain ⟨before, after, heq, -⟩ := List.lookup_eq_some_iff.mp he
      exact hp.engines s.engine engine (by simp [heq])
    refine hq.owned_eq fun e he => ?_
    rcases List.mem_append.mp he with he | he
    · cases List.mem_singleton.mp (Links.mem_on.mp he).2
      rintro rfl
      exact hengine (Option.some.inj (hn.symm.trans hkind))
    · cases List.mem_singleton.mp (Links.mem_on.mp he).2
      rintro rfl
      exact hroot (Option.some.inj (hn.symm.trans htop))
  | enters hs hq => exact hq.owned_eq hp hs hn hk
  | leaves =>
    obtain ⟨_, _, _, _, _, hleft⟩ := p.left_eq
    rw [hleft]
    rfl
  | logs _ _ hq => exact hq.owned_old (Nodes.kind?_lt hn)
  | works hs hq => exact hq.owned_eq hp hs hn hk
  | shares _ hq => exact hq.adds.owned_eq nofun
  | obeys hs _ hq => exact hq.owned_eq hp hs hn hk
  | sorts hs =>
    have hsubmit := hp.submit _ hs
    rw [(sorted_replaces hp.sized (Nodes.kind?_lt hsubmit)).owned]
    split
    · rename_i hv
      subst hv
      rw [if_neg]
      rintro rfl
      cases hsubmit.symm.trans hn
      exact hk rfl
    · rfl
  | endsState hs hq =>
    refine hq.owned_eq_of_single (hp.submit _ hs) hn ?_
    rintro rfl
    exact hk rfl
  | presents hq => exact hq.owned_eq_of_single htop hn hroot.symm
  | marks | clears | unmarks | submitEnds => rfl

theorem Course.owned_eq (hc : p.Course q) (hn : p.nodes.kind? n = some k) (hk : ¬k.adopts)
    (hroot : k ≠ .root) (hengine : k ≠ .engine) : q.owned v n = p.owned v n := by
  have hq := hc.induct (I := fun r => r.nodes.kind? n = some k ∧ r.owned v n = p.owned v n)
    ⟨hn, rfl⟩ fun hr hc' ⟨hn, h⟩ => by
      obtain ⟨_, hnodes⟩ := hc'.nodes
      exact ⟨hnodes ▸ Nodes.kind?_append hn, (hc'.owned_eq hr hn hk hroot hengine).trans h⟩
  exact hq.2

end Pass

end CaptureForest
