import CaptureForest.Proofs.Hierarchy.Calls
import CaptureForest.Proofs.Pass.Numbers

/-! # Events and labels of a hierarchy

A hierarchy lists its events in order, and the event at place `k` of the list has the number `k`. The
labels are numbered in the same way (`Pass.build_numbered`). -/

namespace CaptureForest

/-- Bisection finds what an ascending array has at the places that it looks at. -/
theorem bisect?_eq_some_iff {a : Array Nat} {n lo hi k : Nat} {h : hi ≤ a.size}
    (ha : a.toList.Pairwise (· < ·)) :
    bisect? a n lo hi h = some k ↔ lo ≤ k ∧ k < hi ∧ a[k]? = some n := by
  fun_induction bisect? a n lo hi h with
  | case1 lo hi hhi hlt mid hbelow ih =>
    -- What is looked for comes behind the middle.
    rw [ih]
    constructor
    · rintro ⟨hk, hrest⟩
      exact ⟨by omega, hrest⟩
    · rintro ⟨-, hk, hn⟩
      exact ⟨(lt_iff_lt_of_ascending ha (Array.getElem?_eq_getElem _) hn).mp hbelow, hk, hn⟩
  | case2 lo hi hhi hlt mid hbelow habove ih =>
    -- It comes before the middle.
    rw [ih]
    constructor
    · rintro ⟨hk, hk', hn⟩
      exact ⟨hk, by omega, hn⟩
    · rintro ⟨hk, -, hn⟩
      exact ⟨hk, (lt_iff_lt_of_ascending ha hn (Array.getElem?_eq_getElem _)).mp habove, hn⟩
  | case3 lo hi hhi hlt mid hbelow habove =>
    have hat : a[mid]? = some n := by
      rw [Array.getElem?_eq_getElem (by omega)]
      exact congrArg some (Nat.le_antisymm (Nat.le_of_not_lt habove) (Nat.le_of_not_lt hbelow))
    have hle {i j : Nat} (hi : a[i]? = some n) (hj : a[j]? = some n) : j ≤ i :=
      Nat.le_of_not_lt fun hlt => Nat.lt_irrefl n ((lt_iff_lt_of_ascending ha hi hj).mpr hlt)
    rw [Option.some_inj]
    constructor
    · rintro rfl
      exact ⟨by omega, by omega, hat⟩
    · rintro ⟨-, -, hn⟩
      exact Nat.le_antisymm (hle hn hat) (hle hat hn)
  | case4 lo hi hhi hlt =>
    simp only [reduceCtorEq, false_iff]
    rintro ⟨hk, hk', -⟩
    omega

namespace Pass

variable {p : Pass} {engines : List Engine}

theorem Started.numbered (h : p.Started engines) : p.Numbered := by
  have hevents : p.events = #[] := h.remembers Pass.events (fun _ => rfl) fun _ _ _ _ => rfl
  have hnum : p.numEvents = 0 := h.remembers Pass.numEvents (fun _ => rfl) fun _ _ _ _ => rfl
  have hlabels : p.numLabels = 0 := h.remembers Pass.numLabels (fun _ => rfl) fun _ _ _ _ => rfl
  have hnone {id? : Aux → Option Nat} (hid : id? .none = none) : p.nodes.numbered id? = [] := by
    refine List.filterMap_eq_nil_iff.mpr fun x hx => Option.map_eq_none_iff.mpr ?_
    have hnode := List.fst_mem_of_mem_zipIdx hx
    rw [h.nodes] at hnode
    rcases List.mem_cons.mp hnode with hnode | hnode
    · rw [hnode]
      exact hid
    · obtain ⟨engine, -, hnode⟩ := List.mem_map.mp hnode
      rw [← hnode]
      exact hid
  constructor
  · rw [hnone rfl, hevents]; rfl
  · rw [hnone rfl, hnum]; rfl
  · rw [hnone rfl, hlabels]; rfl

theorem Reached.numbered (h : p.Reached) : p.Numbered :=
  h.induct Started.numbered fun _ hc => hc.numbered

end Pass

namespace Hierarchy

variable {h : Hierarchy} {n i k : Nat}

/-! ## Questions about one kind of node -/

theorem ofKinds_eq_ok {α : Type} {kinds : List NodeKind} {expected : NodeKind}
    {read : Aux → Option α} {a : α} : h.ofKinds kinds expected read n = .ok a ↔
      (∃ kind ∈ kinds, h.nodes.kind? n = some kind) ∧ (h.nodes.aux? n).bind read = some a := by
  unfold ofKinds Hierarchy.node Nodes.kind? Nodes.aux?
  cases h.nodes[n]? with
  | none => simp [bind, Except.bind]
  | some node =>
    by_cases hk : node.kind ∈ kinds
    · cases hread : read node.aux <;>
        simp [bind, Except.bind, pure, Except.pure, throw, throwThe, MonadExceptOf.throw, hk, hread]
    · simp [bind, Except.bind, throw, throwThe, MonadExceptOf.throw, hk]

theorem ofKind_eq_ok {α : Type} {kind : NodeKind} {read : Aux → Option α} {a : α} :
    h.ofKind kind read n = .ok a ↔
      h.nodes.kind? n = some kind ∧ (h.nodes.aux? n).bind read = some a := by
  rw [ofKind, ofKinds_eq_ok]
  simp

theorem eventId_eq_ok (hn : h.eventId n = .ok i) :
    h.nodes.kind? n = some .event ∧ h.nodes.aux? n = some (.event i) := by
  obtain ⟨hk, hread⟩ := ofKind_eq_ok.mp hn
  obtain ⟨aux, haux, hid⟩ := Option.bind_eq_some_iff.mp hread
  cases aux with
  | event => cases hid; exact ⟨hk, haux⟩
  | _ => cases hid

theorem eventId_of_aux (ht : h.nodes.Typed) (hn : h.nodes.aux? n = some (.event i)) :
    h.eventId n = .ok i :=
  ofKind_eq_ok.mpr ⟨ht.kind?_event hn, by rw [hn]; rfl⟩

/-- Every event has a number. -/
theorem exists_eventId (ht : h.nodes.Typed) (hn : h.nodes.kind? n = some .event) :
    ∃ i, h.eventId n = .ok i := by
  obtain ⟨aux, haux, hk⟩ := ht.aux?_of_kind hn
  cases aux with
  | event i => exact ⟨i, eventId_of_aux ht haux⟩
  | _ => simp [Aux.kinds] at hk

theorem markerKind_eq_ok {kind : MarkerKind} (ht : h.nodes.Typed) :
    h.markerKind n = .ok kind ↔ ∃ id, h.nodes.aux? n = some (.marker kind id) := by
  rw [markerKind, ofKind_eq_ok]
  constructor
  · rintro ⟨-, hread⟩
    obtain ⟨aux, haux, hkind⟩ := Option.bind_eq_some_iff.mp hread
    cases aux with
    | marker _ id => cases hkind; exact ⟨id, haux⟩
    | _ => cases hkind
  · rintro ⟨id, haux⟩
    exact ⟨ht.kind?_marker haux, by rw [haux]; rfl⟩

/-- The markers of labels, in order. -/
def labels (h : Hierarchy) : List Nat :=
  (List.range h.numNodes).filter fun n =>
    h.markerKind n = .ok .beginEnd ∨ h.markerKind n = .ok .insert

theorem mem_labels (ht : h.nodes.Typed) :
    n ∈ h.labels ↔ ∃ i, (h.nodes.aux? n).bind Aux.labelId? = some i := by
  simp only [labels, List.mem_filter, List.mem_range, decide_eq_true_eq, markerKind_eq_ok ht,
    Option.bind_eq_some_iff, Aux.labelId?_eq_some]
  constructor
  · rintro ⟨-, ⟨i, hn⟩ | ⟨i, hn⟩⟩
    · exact ⟨i, _, hn, .inl rfl⟩
    · exact ⟨i, _, hn, .inr rfl⟩
  · rintro ⟨i, _, hn, rfl | rfl⟩
    · exact ⟨Nodes.aux?_lt hn, .inl ⟨i, hn⟩⟩
    · exact ⟨Nodes.aux?_lt hn, .inr ⟨i, hn⟩⟩

theorem markerId_of_labelId? (ht : h.nodes.Typed)
    (hn : (h.nodes.aux? n).bind Aux.labelId? = some i) : h.markerId n = .ok i := by
  obtain ⟨aux, haux, hid⟩ := Option.bind_eq_some_iff.mp hn
  refine ofKind_eq_ok.mpr ?_
  rcases Aux.labelId?_eq_some.mp hid with rfl | rfl
  · exact ⟨ht.kind?_marker haux, by rw [haux]; rfl⟩
  · exact ⟨ht.kind?_marker haux, by rw [haux]; rfl⟩

/-! ## The rank of an event -/

theorem eventIndex_of_getElem? (ha : h.events.toList.Pairwise (· < ·))
    (hn : h.events[k]? = some n) : h.eventIndex n = k + 1 := by
  have hlt : k < h.events.size := (Array.getElem?_eq_some_iff.mp hn).1
  rw [eventIndex, (bisect?_eq_some_iff ha).mpr ⟨Nat.zero_le k, hlt, hn⟩]
  rfl

theorem eventIndex_of_not_mem (ha : h.events.toList.Pairwise (· < ·)) (hn : n ∉ h.events) :
    h.eventIndex n = 0 := by
  rw [eventIndex]
  cases hplace : bisect? h.events n 0 h.events.size (Nat.le_refl _) with
  | none => rfl
  | some k =>
    obtain ⟨-, -, hk⟩ := (bisect?_eq_some_iff ha).mp hplace
    exact absurd (Array.mem_of_getElem? hk) hn

end Hierarchy

namespace Pass

open Hierarchy

variable {o : Options} {c : Capture} {p q : Pass} {h : Hierarchy}

-- An action without variables would be run when a statement about it is unified with another.
attribute [local irreducible] build

/-- The events of a hierarchy are all nodes of draws, dispatches and blits, in order. The event at place
`k` of the list has the number `k` and the rank `k + 1`, and no other node has a rank. The labels are
numbered in the order of their nodes, too. The numbers start at 0 in every build, whatever pass it
starts with. -/
theorem build_numbered (hb : build o c p = .ok h q) :
    h.events.toList = h.nodes.ofKind .event ∧ h.events.toList.Pairwise (· < ·) ∧
      (∀ k n, h.events[k]? = some n → h.eventId n = .ok k ∧ h.eventIndex n = k + 1) ∧
      (∀ n, n ∉ h.events → h.eventIndex n = 0) ∧
      ∀ k n, h.labels[k]? = some n → h.markerId n = .ok k := by
  obtain ⟨r, hr, hbecomes⟩ := (build_leads o c).of_ok hb
  have hnumbered := hr.reached.numbered
  have ht : h.nodes.Typed := hbecomes.nodes ▸ hr.reached.typed
  have hascending : h.events.toList.Pairwise (· < ·) := hbecomes.events ▸ hnumbered.ascending
  have hevent {k n : Nat} : h.events[k]? = some n ↔ h.nodes.aux? n = some (.event k) := by
    rw [hbecomes.events, hbecomes.nodes]
    exact hnumbered.event_iff
  have hlabels : h.labels = (h.nodes.numbered Aux.labelId?).map (·.1) := by
    have hordered : h.labels.Pairwise (· < ·) := List.pairwise_lt_range.filter _
    refine hordered.eq_of_mem_iff Nodes.numbered_ascending fun n => ?_
    rw [mem_labels ht, Nodes.mem_numbered_places]
  refine ⟨?_, hascending, fun k n hn => ⟨eventId_of_aux ht (hevent.mp hn),
    eventIndex_of_getElem? hascending hn⟩, fun n => eventIndex_of_not_mem hascending,
    fun k n hn => markerId_of_labelId? ht ?_⟩
  · have hordered : (h.nodes.ofKind .event).Pairwise (· < ·) := List.pairwise_lt_range.filter _
    refine hascending.eq_of_mem_iff hordered fun n => ?_
    rw [Nodes.mem_ofKind]
    constructor
    · intro hn
      obtain ⟨k, hk⟩ := List.getElem?_of_mem hn
      exact ht.kind?_event (hevent.mp (Array.getElem?_toList ▸ hk))
    · intro hn
      obtain ⟨k, hk⟩ := exists_eventId ht hn
      exact Array.mem_toList_iff.mpr (Array.mem_of_getElem? (hevent.mpr (eventId_eq_ok hk).2))
  · rw [hlabels, hbecomes.nodes] at hn
    rw [hbecomes.nodes]
    exact (Nodes.getElem?_numbered_iff hnumbered.labelIds).mp hn

/-- Two submits with labels and events, behind a build that has counted some. The marker of the call
at the end takes no number. -/
theorem build_numbered_submits :
    let s : Submit :=
      { engine := .universal, queue := .universal, ibs := [{ va := 0, size := 6 }] }
    let c : Capture := {
      submits := [s, { s with ibs := [{ va := 12, size := 5 }] }]
      memory := .flat (Words.toBytes #[Header.ofOpcode Opcode.nop 1,
        CallMarker.word .beginDebugUtilsLabel, Header.ofOpcode Opcode.drawAuto 0,
        Header.ofOpcode Opcode.nop 1, CallMarker.word .insertDebugUtilsLabel,
        Header.ofOpcode Opcode.drawAuto 0, Header.ofOpcode Opcode.nop 1, CallMarker.word .draw]) }
    let p : Pass := { events := #[3], numEvents := 4, numLabels := 2 }
    ∃ h q, build {} c p = .ok h q ∧ h.events = #[11, 15, 21] ∧ h.labels = [9, 13, 19] ∧
      h.eventId 21 = .ok 2 ∧ h.eventIndex 21 = 3 ∧ h.markerId 19 = .ok 2 ∧ h.eventIndex 23 = 0 := by
  intro s c p
  have hrun : Succeeds (build {} c) p fun h _ =>
      h.events = #[11, 15, 21] ∧ h.labels = [9, 13, 19] := by
    decide +kernel
  obtain ⟨h, q, hb, hevents, hlabels⟩ := hrun.exists_ok
  obtain ⟨-, -, hlisted, hother, hlabelled⟩ := build_numbered hb
  obtain ⟨hid, hindex⟩ := hlisted 2 21 (by rw [hevents]; rfl)
  have hlabel : h.markerId 19 = .ok 2 := hlabelled 2 19 (by rw [hlabels]; rfl)
  have hnone : h.eventIndex 23 = 0 := hother 23 (by simp [hevents])
  exact ⟨h, q, hb, hevents, hlabels, hid, hindex, hlabel, hnone⟩

end Pass

end CaptureForest
