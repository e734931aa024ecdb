import CaptureForest.Proofs.Hierarchy.Buffers
import CaptureForest.Proofs.Hierarchy.Forests
import CaptureForest.Proofs.Pass.Apart
import CaptureForest.Proofs.Pass.Runs
import Mathlib.Data.List.Lattice
import Mathlib.Data.List.Pairwise

/-! # Runs of packets in a hierarchy

In the views with events every packet belongs to the event or the synchronisation that follows it,
or to the state at the end of its submit. -/

namespace CaptureForest

open Relation

/-! ## Every moment of a build -/

namespace Pass

variable {p : Pass} {engines : List Engine}

theorem Started.divided (h : p.Started engines) : p.Divided := by
  have hruns : p.nodes.runEnds = [] := by
    refine List.eq_nil_iff_forall_not_mem.mpr fun n hn => ?_
    obtain ⟨k, hk, htakes⟩ := Nodes.mem_runEnds.mp hn
    rcases h.kinds hk with rfl | rfl <;> cases htakes
  have hpackets : p.packets = #[] := h.remembers Pass.packets (fun _ => rfl) fun _ _ _ _ => rfl
  intro v _
  rw [hruns, hpackets, h.ofKind_eq_nil (by decide)]
  rfl

theorem Started.apart (h : p.Started engines) : p.Apart where
  latest _ hs' := by rcases h.kinds hs' with hk | hk <;> cases hk
  buffers r hr := by
    have hdraw : p.drawIbs = [] := h.remembers Pass.drawIbs (fun _ => rfl) fun _ _ _ _ => rfl
    have hconstant : p.constantIbs = [] :=
      h.remembers Pass.constantIbs (fun _ => rfl) fun _ _ _ _ => rfl
    rw [hdraw, hconstant] at hr
    cases hr
  stacked := {
    markers := fun m hm => by
      have hmarkers : p.markers = [] := h.remembers Pass.markers (fun _ => rfl) fun _ _ _ _ => rfl
      rw [hmarkers] at hm
      cases hm
    aligned := h.sound.stacked.aligned
    openCall := h.sound.stacked.openCall
    scope := fun s hs => by
      have hscope : p.scope = none := h.remembers Pass.scope (fun _ => rfl) fun _ _ _ _ => rfl
      rw [hscope] at hs
      cases hs }
  packets n hn := by
    have hpackets : p.packets = #[] := h.remembers Pass.packets (fun _ => rfl) fun _ _ _ _ => rfl
    rw [hpackets] at hn
    cases hn
  beginPackets n hn := by
    have hpackets : p.beginPackets = #[] :=
      h.remembers Pass.beginPackets (fun _ => rfl) fun _ _ _ _ => rfl
    rw [hpackets] at hn
    cases hn
  events e he := by
    have hevents : p.beginEvents = #[] :=
      h.remembers Pass.beginEvents (fun _ => rfl) fun _ _ _ _ => rfl
    rw [hevents] at he
    cases he
  owned {v n c} hc hn := by
    obtain ⟨a, b, ha, -⟩ := h.sound.arranged.fits hc
    rw [ha] at hn
    rcases h.kinds ha with rfl | rfl <;> simp at hn
  shared hc := by rcases h.kinds (h.sound.arranged.shares hc) with hk | hk <;> cases hk

theorem Reached.divided (h : p.Reached) : p.Divided :=
  h.induct Started.divided fun hq hc => hc.divided hq

theorem Reached.apart (h : p.Reached) : p.Apart :=
  h.induct Started.apart fun hq hc => hc.apart hq

end Pass

/-! ## The submit of a node -/

namespace View

variable {v : View} {a b : NodeKind}

theorem of_owns_root (hv : v ∈ withEvents) (h : v.owns .root b) : b = .submit ∨ b = .present := by
  revert v
  cases b <;> decide

theorem not_owns_of_present : ¬v.owns .present b := by
  cases v <;> cases b <;> decide

theorem not_owns_of_takesRun (h : a.takesRun) : ¬v.owns a b := by
  cases a <;> first | contradiction | (cases v <;> cases b <;> decide)

theorem not_owns_engine (hv : v ∈ withEvents) : ¬v.owns a .engine := by
  revert v
  cases a <;> decide

theorem places_of_takesRun (hv : v ∈ withEvents) (h : a.takesRun) :
    v.places a ∧ a ∉ [NodeKind.root, .submit, .present, .reg, .field] := by
  revert v
  cases a <;> first | contradiction | decide

/-- The state at the end of a submit is listed where events are, not where buffers are. -/
example : View.allEvent.places .postambleState ∧ ¬View.engine.places .postambleState := by
  decide +kernel

end View

/-- In the views with events all that is listed and no present is below a submit, but for what
belongs to a packet. -/
theorem Arranged.below_submit {nodes : Nodes} {owned shared : View → Nat → List Nat} {v : View}
    {n : Nat} {k : NodeKind} (h : Arranged nodes owned shared) (hv : v ∈ View.withEvents)
    (hk : nodes.kind? n = some k) (hplaces : v.places k)
    (hne : k ∉ [.root, .submit, .present, .reg, .field]) :
    ∃ s, nodes.kind? s = some .submit ∧ TransGen (fun a b => b ∈ owned v a) s n := by
  have hreach := h.reachable hk hplaces (fun heq => hne (by simp [heq]))
    fun heq => hne (by simp [heq])
  rcases ReflTransGen.cases_head hreach with rfl | ⟨s, hs, hsn⟩
  · rw [h.root.mpr rfl] at hk
    cases hk
    exact absurd List.mem_cons_self hne
  obtain ⟨a, b, ha, hb, hab, -⟩ := h.fits hs
  rw [h.root.mpr rfl] at ha
  cases ha
  -- The path does not end here, as the node is of another kind.
  have hbelow : TransGen (fun a b => b ∈ owned v a) s n := by
    refine (reflTransGen_iff_eq_or_transGen.mp hsn).resolve_left ?_
    rintro rfl
    rw [hk] at hb
    cases hb
    rcases View.of_owns_root hv hab with rfl | rfl <;> simp at hne
  rcases View.of_owns_root hv hab with rfl | rfl
  · exact ⟨s, hb, hbelow⟩
  · obtain ⟨m, hm, -⟩ := TransGen.head'_iff.mp hbelow
    obtain ⟨a, _, ha, -, ham, -⟩ := h.fits hm
    rw [hb] at ha
    cases ha
    exact absurd ham View.not_owns_of_present

/-- What is below a submit in a view with events is of that submit. -/
theorem Pass.Apart.sameSubmit_below {p : Pass} {v : View} {s n : Nat} (h : p.Apart)
    (hp : p.IsArranged) (hv : v ∈ View.withEvents) (hs : p.nodes.kind? s = some .submit)
    (hn : TransGen (fun a b => b ∈ p.owned v a) s n) : p.nodes.SameSubmit s n := by
  induction hn with
  | single hn => exact h.owned hn (by simp [hs])
  | @tail m n hsm hn ih =>
    refine ih.trans (h.owned hn ?_)
    -- The node has an owner, so it is neither the root nor an engine.
    obtain ⟨a, -, ham⟩ := TransGen.tail'_iff.mp hsm
    obtain ⟨_, b, -, hb, hab, -⟩ := hp.fits ham
    rw [hb]
    intro hmem
    rcases List.mem_pair.mp hmem with heq | heq
    · cases heq
      exact View.not_owns_root hab
    · cases heq
      exact View.not_owns_engine hv hab

namespace Hierarchy

variable {o : Options} {c : Capture} {h : Hierarchy}

theorem existsUnique_of_flatMap_eq {α β : Type} {l : List α} {f : α → List β} {m : List β} {b : β}
    (hl : l.flatMap f = m) (hm : m.Nodup) (hb : b ∈ m) : ∃! a, a ∈ l ∧ b ∈ f a := by
  rw [← hl] at hm hb
  obtain ⟨a, ha, hab⟩ := List.mem_flatMap.mp hb
  refine ⟨a, ⟨ha, hab⟩, fun a' ⟨ha', hab'⟩ => ?_⟩
  by_contra hne
  have : Std.Symm (Function.onFun List.Disjoint f) := ⟨fun _ _ h => List.Disjoint.symm h⟩
  exact (List.nodup_flatMap.mp hm).2.forall ha' ha hne hab' hab

/-- In both views with events, the lists of packets of all events, synchronisations and states,
one after the other, are all packets in order. Each of these nodes has packets of the submit that it
is below, and no others. -/
theorem ofCapture_runs (hb : ofCapture o c = .ok h) : ∀ v ∈ View.withEvents,
    (∀ k, h.nodes.kind? k = some .packet → ∃! n, n ∈ h.nodes.runEnds ∧ k ∈ h.shared v n) ∧
      h.nodes.runEnds.flatMap (h.shared v) = h.nodes.ofKind .packet ∧
      ∀ n ∈ h.nodes.runEnds, ∃ s, h.nodes.kind? s = some .submit ∧ TransGen (h.Owns v) s n ∧
        ∀ k ∈ h.shared v n, ∀ s', h.nodes.kind? s' = some .submit →
          (k ∈ h.shared v s' ↔ s' = s) := by
  obtain ⟨q, hq, hnodes, hbakes⟩ := (ofCapture_spec o c).1 h hb
  intro v hv
  have hv' : v ∈ View.withPackets := by revert v; decide
  have hshared : h.shared v = q.shared v := shared_eq hbakes hv'
  have hpackets : q.packets = #[] := hq.reached.apart.packets_eq_empty hq.closed
  have hall : q.nodes.runEnds.flatMap (q.shared v) = q.nodes.ofKind .packet := by
    have hdivided := hq.reached.divided v hv
    rwa [hpackets, List.append_nil] at hdivided
  have hnd : (q.nodes.ofKind .packet).Nodup := List.nodup_range.filter _
  rw [hnodes, hshared]
  refine ⟨fun k hk => existsUnique_of_flatMap_eq hall hnd (Nodes.mem_ofKind.mpr hk), hall, ?_⟩
  intro n hn
  obtain ⟨kind, hkind, htakes⟩ := Nodes.mem_runEnds.mp hn
  obtain ⟨hplaces, hne⟩ := View.places_of_takesRun hv htakes
  have hapart := hq.reached.apart
  obtain ⟨s, hs, hbelow⟩ := hq.sound.arranged.below_submit hv hkind hplaces hne
  refine ⟨s, hs, TransGen.mono (fun _ _ => (owns_iff hbakes hv').mpr) _ _ hbelow, ?_⟩
  intro k hk s' hs'
  have hsame : q.nodes.SameSubmit s k :=
    (hapart.sameSubmit_below hq.sound.arranged hv hs hbelow).trans (hapart.shared hk)
  obtain ⟨s'', hs'', hfiled⟩ := hq.filing.packets k (hq.sound.arranged.shares hk)
  obtain rfl : s'' = s := ((hapart.shared (hfiled v hv')).trans hsame.symm).eq hs'' hs
  refine ⟨fun hk' => ((hapart.shared hk').trans hsame.symm).eq hs' hs, ?_⟩
  rintro rfl
  exact hfiled v hv'

/-- A capture of three packets: the draw takes itself and the packet before it, and the packet
behind it is of the state at the end. -/
theorem ofCapture_runs_draw :
    let c : Capture := {
      submits := [{ engine := .universal, queue := .universal, ibs := [{ va := 0, size := 3 }] }]
      memory := .flat (Words.toBytes #[Header.ofOpcode Opcode.nop 0,
        Header.ofOpcode Opcode.drawAuto 0, Header.ofOpcode Opcode.nop 0]) }
    ∃ h, ofCapture {} c = .ok h ∧ h.nodes.runEnds = [10, 12] ∧ h.shared .rgp 10 = [8, 9] ∧
      h.shared .rgp 10 ++ h.shared .rgp 12 = h.nodes.ofKind .packet := by
  intro c
  have hbuild : ∃ h, ofCapture {} c = .ok h ∧ h.nodes.runEnds = [10, 12] ∧
      h.shared .rgp 10 = [8, 9] := by decide +kernel
  obtain ⟨h, hb, hends, hdraw⟩ := hbuild
  obtain ⟨-, hall, -⟩ := ofCapture_runs hb .rgp (by decide)
  rw [hends] at hall
  exact ⟨h, hb, hends, hdraw, by simpa using hall⟩

end Hierarchy

end CaptureForest
