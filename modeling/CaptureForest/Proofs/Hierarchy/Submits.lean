import CaptureForest.Proofs.Hierarchy.Runs
import CaptureForest.Proofs.Hierarchy.Sharing
import Mathlib.Data.Nat.SuccPred
import Mathlib.Order.SuccPred.Archimedean

/-! # Submits do not leak

Whatever a submit leaves open, no edge of any view leads from one submit into another
(`Hierarchy.ofCapture_confined`). For the edges of a pass this is `Pass.Apart`; the calls that the
last view merges are siblings, so it stays true there. -/

namespace CaptureForest

/-- The submit that a node is of: the last one before it. -/
def Nodes.OfSubmit (nodes : Nodes) (n s : Nat) : Prop :=
  IsGreatest {s | nodes.kind? s = some .submit ∧ s ≤ n} s

namespace Nodes.SameSubmit

variable {nodes : Nodes} {a b s : Nat}

theorem ofSubmit_iff (h : nodes.SameSubmit a b) : nodes.OfSubmit a s ↔ nodes.OfSubmit b s := by
  have hset : {s | nodes.kind? s = some .submit ∧ s ≤ a} =
      {s | nodes.kind? s = some .submit ∧ s ≤ b} :=
    Set.ext fun t => and_congr_right (h t)
  rw [OfSubmit, hset, OfSubmit]

/-- Two nodes between the same submits are of one submit, if there is any before them. -/
theorem exists_ofSubmit (h : nodes.SameSubmit a b) (hs : nodes.kind? s = some .submit)
    (hle : s ≤ b) : ∃ s, nodes.OfSubmit a s ∧ nodes.OfSubmit b s := by
  have hbdd : BddAbove {s | nodes.kind? s = some .submit ∧ s ≤ b} := ⟨b, fun _ ht => ht.2⟩
  obtain ⟨t, ht⟩ := hbdd.exists_isGreatest_of_nonempty ⟨s, hs, hle⟩
  exact ⟨t, h.ofSubmit_iff.mpr ht, ht⟩

end Nodes.SameSubmit

/-! ## Every edge is behind a submit -/

namespace NodeKind

/-- The nodes of a submit, but for those that end a run of packets. -/
def isOfSubmit : NodeKind → Bool
  | .submit | .ib | .packet | .reg | .field | .marker => true
  | _ => false

end NodeKind

namespace View

theorem isOfSubmit_of_owns {v : View} {a b : NodeKind} (h : v.owns a b)
    (ha : some a ∉ [some NodeKind.root, some .engine]) : a.isOfSubmit := by
  cases a <;> first
    | rfl
    | exact absurd (by decide) ha
    | (revert h; cases v <;> cases b <;> decide)

/-- But for packets, a node of a submit has an owner in some view, and that is of a submit too. -/
theorem exists_places_of_isOfSubmit {b : NodeKind} (h : b.isOfSubmit) (hsubmit : b ≠ .submit)
    (hpacket : b ≠ .packet) :
    ∃ v : View, v.places b ∧ ∀ a, v.owns a b → a.isOfSubmit ∧ ¬b.endsRun := by
  suffices H : ∃ v : View, v.places b ∧
      ∀ a ∈ NodeKind.all, v.owns a b → a.isOfSubmit ∧ ¬b.endsRun by
    obtain ⟨v, hv, howns⟩ := H
    exact ⟨v, hv, fun a => howns a a.mem_all⟩
  cases b <;> first
    | contradiction
    | exact ⟨.submit, by decide⟩
    | exact ⟨.allEvent, by decide⟩

end View

/-- If packets are behind a submit, then so are all nodes that own others. -/
theorem Arranged.exists_submit_le {nodes : Nodes} {owned shared : View → Nat → List Nat} {n : Nat}
    {k : NodeKind} (h : Arranged nodes owned shared)
    (hpackets : ∀ n, nodes.kind? n = some .packet → ∃ s, nodes.kind? s = some .submit ∧ s ≤ n)
    (hk : nodes.kind? n = some k) (hof : k.isOfSubmit) :
    ∃ s, nodes.kind? s = some .submit ∧ s ≤ n := by
  induction n using Nat.strong_induction_on generalizing k with
  | _ n ih =>
    by_cases hsubmit : k = .submit
    · exact ⟨n, by rw [hk, hsubmit], Nat.le_refl n⟩
    by_cases hpacket : k = .packet
    · exact hpackets n (by rw [hk, hpacket])
    obtain ⟨v, hplaces, howns⟩ := View.exists_places_of_isOfSubmit hof hsubmit hpacket
    obtain ⟨m, hm⟩ := h.placed hk hplaces
    obtain ⟨a, b, ha, hb, hab, hlt⟩ := h.fits hm
    obtain rfl : k = b := Option.some.inj (hk.symm.trans hb)
    obtain ⟨hof', hends⟩ := howns a hab
    have hlt : m < n := hlt.resolve_right hends
    obtain ⟨s, hs, hle⟩ := ih m hlt ha hof'
    exact ⟨s, hs, Nat.le_trans hle (Nat.le_of_lt hlt)⟩

namespace Hierarchy

variable {o : Options} {c : Capture} {h : Hierarchy} {v : View} {n m : Nat}

/-- The calls that a call takes packets from are of its submit. -/
theorem sameSubmit_of_mem_callsOf {q : Pass} (hq : q.Reached) (hp : q.Sound)
    (hnodes : h.nodes = q.nodes) (hbakes : ∀ v, (h.forest v).Bakes (q.allEdges.get v))
    (hm : m ∈ h.callsOf n) : q.nodes.SameSubmit n m := by
  have hapart := hq.apart
  unfold callsOf at hm
  split at hm
  · cases hm
  · rename_i owner hclass hparent
    have hn := (parent?_iff (hbakes .vulkanCall)).mp hparent
    -- The owner owns a marker, so it is neither the root nor an engine.
    have hsame {a : Nat} (ha : a ∈ (h.forest .vulkanCall).children owner) :
        q.nodes.SameSubmit owner a := by
      have howned {b : Nat} (hb : b ∈ (h.forest .vulkanCall).children owner) :
          b ∈ q.owned .allEvent owner := by
        rw [Array.mem_def, (hbakes .vulkanCall).children] at hb
        exact Pass.mem_owned_of_allEdges (Array.mem_def.mpr hb)
      refine hapart.owned (howned ha) ?_
      obtain ⟨j, k, hj, hk, hjk, -⟩ := hp.arranged.fits (howned hn)
      rw [hnodes] at hclass
      have hmarker := Nodes.kind?_of_callClass hq.typed fun heq => by cases hclass.symm.trans heq
      rw [hmarker] at hk
      cases hk
      rw [hj]
      intro hmem
      rcases List.mem_pair.mp hmem with heq | heq <;> cases heq <;> revert hjk <;> decide
    rcases List.mem_append.mp hm with hm | hm
    · have hmem := List.takeWhile_sublist _ |>.subset (trailingCalls_sublist.subset hm)
      exact (hsame hn).symm.trans (hsame (Array.mem_def.mpr hmem))
    · rw [List.mem_singleton.mp hm]
      exact .refl
  · rw [List.mem_singleton.mp hm]
    exact .refl

/-- What a node shares in some view, a node of its submit shares in the pass. -/
theorem exists_shared_of_shared {q : Pass} (hq : q.Reached) (hp : q.Sound)
    (hnodes : h.nodes = q.nodes) (hbakes : ∀ v, (h.forest v).Bakes (q.allEdges.get v))
    (hm : m ∈ h.shared v n) : ∃ w a, q.nodes.SameSubmit n a ∧ m ∈ q.shared w a := by
  have hcall {a : Nat} (ha : m ∈ h.shared .vulkanCall a) : m ∈ q.shared .allEvent a := by
    rw [shared_vulkanCall hbakes] at ha
    split at ha
    · cases ha
    · exact ha
  cases v with
  | vulkanCall => exact ⟨.allEvent, n, .refl, hcall hm⟩
  | vulkanEvent =>
    rw [shared_vulkanEvent hq hp hnodes hbakes] at hm
    obtain ⟨a, ha, hm⟩ := List.mem_flatMap.mp hm
    exact ⟨.allEvent, a, sameSubmit_of_mem_callsOf hq hp hnodes hbakes ha, hcall hm⟩
  | engine | submit | allEvent | rgp =>
    rw [shared_eq hbakes (by decide)] at hm
    exact ⟨_, n, .refl, hm⟩

/-- No edge leads from one submit into another, whatever is left open at the end of a submit: but for
the root and the engines, a node owns and shares nodes of its own submit only. -/
theorem ofCapture_confined (hb : ofCapture o c = .ok h)
    (hn : h.nodes.kind? n ∉ [some .root, some .engine]) (hm : h.Owns v n m ∨ m ∈ h.shared v n) :
    ∃ s, h.nodes.OfSubmit n s ∧ h.nodes.OfSubmit m s := by
  obtain ⟨q, hbetween, hnodes, hbakes⟩ := (ofCapture_spec o c).1 h hb
  have hq := hbetween.reached
  have hp := hbetween.sound
  have hapart := hq.apart
  rw [hnodes] at hn ⊢
  have hpackets (k : Nat) (hk : q.nodes.kind? k = some .packet) :
      ∃ s, q.nodes.kind? s = some .submit ∧ s ≤ k := by
    obtain ⟨s, hs, hfiled⟩ := hbetween.filing.packets k hk
    exact ⟨s, hs, (hapart.shared (hfiled .submit (by decide)) s hs).mp (Nat.le_refl s)⟩
  rcases hm with hm | hm
  · have hm : m ∈ q.owned (Pass.source v) n := by
      rw [Owns, Array.mem_def, (hbakes v).children] at hm
      exact Pass.mem_owned_of_allEdges (Array.mem_def.mpr hm)
    have hsame := hapart.owned hm hn
    obtain ⟨a, _, ha, -, hab, -⟩ := hp.arranged.fits hm
    obtain ⟨s, hs, hle⟩ := hp.arranged.exists_submit_le hpackets ha
      (View.isOfSubmit_of_owns hab (ha ▸ hn))
    exact hsame.exists_ofSubmit hs ((hsame s hs).mp hle)
  · obtain ⟨w, a, hna, hma⟩ := exists_shared_of_shared hq hp hnodes hbakes hm
    obtain ⟨s, hs, hle⟩ := hpackets m (hp.arranged.shares hma)
    exact (hna.trans (hapart.shared hma)).exists_ofSubmit hs hle

/-- The first submit ends within a label and within a call that executes command buffers. The draw of
the second is of the second all the same. -/
theorem ofCapture_confined_label :
    let c : Capture := {
      submits := [{ engine := .universal, queue := .universal, ibs := [{ va := 0, size := 4 }] },
        { engine := .universal, queue := .universal, ibs := [{ va := 16, size := 1 }] }]
      memory := .flat (Words.toBytes #[Header.ofOpcode Opcode.nop 1,
        CallMarker.word .beginDebugUtilsLabel, Header.ofOpcode Opcode.nop 1,
        CallMarker.word .executeCommands, Header.ofOpcode Opcode.drawAuto 0]) }
    ∃ h, ofCapture {} c = .ok h ∧ h.Owns .allEvent 9 11 ∧ h.Owns .allEvent 13 16 ∧
      h.nodes.OfSubmit 16 13 := by
  intro c
  have hrun : ∃ h, ofCapture {} c = .ok h ∧ h.nodes.kind? 13 = some .submit ∧
      (h.forest .allEvent).children 9 = #[11] ∧ (h.forest .allEvent).children 13 = #[16] := by
    decide +kernel
  obtain ⟨h, hb, hsubmit, hlabel, hdraw⟩ := hrun
  have howns : h.Owns .allEvent 13 16 := by simp [Owns, hdraw]
  obtain ⟨s, hs, hs'⟩ := ofCapture_confined hb (by simp [hsubmit]) (.inl howns)
  obtain rfl : s = 13 := hs.unique ⟨⟨hsubmit, Nat.le_refl 13⟩, fun _ ht => ht.2⟩
  exact ⟨h, hb, by simp [Owns, hlabel], howns, hs'⟩

end Hierarchy

end CaptureForest
