import CaptureForest.Proofs.Pass.Nested
import Mathlib.Data.List.Sort

/-! # The numbers of events and labels

Events and labels are numbered from 0 on, in the order in which they are added, and the list of events
is kept in step with the nodes (`Pass.Numbered`). -/

namespace CaptureForest

/-- Of two places in an ascending array, the one with the lesser element comes first. -/
theorem lt_iff_lt_of_ascending {a : Array Nat} {i j m n : Nat} (h : a.toList.Pairwise (· < ·))
    (hm : a[i]? = some m) (hn : a[j]? = some n) : m < n ↔ i < j := by
  obtain ⟨hi, rfl⟩ := Array.getElem?_eq_some_iff.mp hm
  obtain ⟨hj, rfl⟩ := Array.getElem?_eq_some_iff.mp hn
  have hmono : StrictMono a.toList.get := h.sortedLT.strictMono_get
  exact hmono.lt_iff_lt (a := ⟨i, hi⟩) (b := ⟨j, hj⟩)

namespace Aux

/-- The number of an event. -/
def eventId? : Aux → Option Nat
  | .event id => some id
  | _ => Option.none

/-- The number of a label. The markers of recorded calls have none. -/
def labelId? : Aux → Option Nat
  | .marker .beginEnd id | .marker .insert id => some id
  | _ => Option.none

theorem eventId?_eq_some {aux : Aux} {i : Nat} : aux.eventId? = some i ↔ aux = .event i := by
  cases aux <;> simp [eventId?]

theorem labelId?_eq_some {aux : Aux} {i : Nat} :
    aux.labelId? = some i ↔ aux = .marker .beginEnd i ∨ aux = .marker .insert i := by
  cases aux with
  | marker kind => cases kind <;> simp [labelId?]
  | _ => simp [labelId?]

end Aux

namespace Nodes

variable {nodes : Nodes} {new : List Node} {node : Node} {id? : Aux → Option Nat} {n i : Nat}

/-- The nodes that have a number, in order, each with its number. -/
def numbered (nodes : Nodes) (id? : Aux → Option Nat) : List (Nat × Nat) :=
  nodes.toList.zipIdx.filterMap fun x => (id? x.1.aux).map (x.2, ·)

theorem mem_numbered : (n, i) ∈ nodes.numbered id? ↔ (nodes.aux? n).bind id? = some i := by
  simp only [numbered, List.mem_filterMap, Option.map_eq_some_iff, Prod.exists,
    List.mk_mem_zipIdx_iff_getElem?, Array.getElem?_toList, aux?, Option.bind_map,
    Option.bind_eq_some_iff, Function.comp_apply, Prod.mk.injEq]
  constructor
  · rintro ⟨node, _, hnode, _, hid, rfl, rfl⟩
    exact ⟨node, hnode, hid⟩
  · rintro ⟨node, hnode, hid⟩
    exact ⟨node, n, hnode, i, hid, rfl, rfl⟩

theorem mem_numbered_places :
    n ∈ (nodes.numbered id?).map (·.1) ↔ ∃ i, (nodes.aux? n).bind id? = some i := by
  simp [← mem_numbered]

/-- Nodes are listed in order. -/
theorem numbered_ascending : ((nodes.numbered id?).map (·.1)).Pairwise (· < ·) := by
  have hplaces : nodes.toList.zipIdx.Pairwise fun x y => x.2 < y.2 := by
    refine List.pairwise_map.mp ?_
    rw [List.zipIdx_map_snd]
    exact List.pairwise_lt_range'
  rw [List.pairwise_map, numbered, List.pairwise_filterMap]
  refine hplaces.imp fun hlt a ha b hb => ?_
  obtain ⟨_, -, rfl⟩ := Option.map_eq_some_iff.mp ha
  obtain ⟨_, -, rfl⟩ := Option.map_eq_some_iff.mp hb
  exact hlt

theorem numbered_append : Nodes.numbered (nodes ++ new) id? = nodes.numbered id? ++
    (new.zipIdx nodes.size).filterMap fun x => (id? x.1.aux).map (x.2, ·) := by
  simp [numbered, Array.toList_appendList, List.zipIdx_append]

/-- Nodes without a number are not listed. -/
theorem numbered_append_of_none (h : ∀ node ∈ new, id? node.aux = none) :
    Nodes.numbered (nodes ++ new) id? = nodes.numbered id? := by
  rw [numbered_append, List.filterMap_eq_nil_iff.mpr, List.append_nil]
  intro x hx
  rw [h x.1 (List.fst_mem_of_mem_zipIdx hx), Option.map_none]

theorem numbered_append_single (h : id? node.aux = some i) :
    Nodes.numbered (nodes ++ [node]) id? = nodes.numbered id? ++ [(nodes.size, i)] := by
  rw [numbered_append]
  simp [h]

/-- The node at place `k` of the list is the one with the number `k`, if the numbers count up. -/
theorem getElem?_numbered_iff {m k : Nat} (h : (nodes.numbered id?).map (·.2) = List.range m) :
    ((nodes.numbered id?).map (·.1))[k]? = some n ↔ (nodes.aux? n).bind id? = some k := by
  have hcount {j : Nat} {x : Nat × Nat} (hx : (nodes.numbered id?)[j]? = some x) : x.2 = j := by
    have hj : ((nodes.numbered id?).map (·.2))[j]? = some x.2 := by rw [List.getElem?_map, hx]; rfl
    rw [h] at hj
    obtain ⟨_, hj⟩ := List.getElem?_eq_some_iff.mp hj
    rw [← hj, List.getElem_range]
  rw [← mem_numbered, List.getElem?_map, Option.map_eq_some_iff]
  constructor
  · rintro ⟨⟨_, i⟩, hx, rfl⟩
    obtain rfl := hcount hx
    exact List.mem_of_getElem? hx
  · intro hmem
    obtain ⟨j, hx⟩ := List.getElem?_of_mem hmem
    obtain rfl := hcount hx
    exact ⟨_, hx, rfl⟩

end Nodes

namespace Pass

variable {p q : Pass} {new : List Node} {node : Node} {a b i j n : Nat}

/-- The nodes with the number of an event are listed, and their numbers count up. So do those of the
labels. -/
structure Numbered (p : Pass) : Prop where
  events : (p.nodes.numbered Aux.eventId?).map (·.1) = p.events.toList
  eventIds : (p.nodes.numbered Aux.eventId?).map (·.2) = List.range p.numEvents
  labelIds : (p.nodes.numbered Aux.labelId?).map (·.2) = List.range p.numLabels

namespace Numbered

theorem event_iff (h : p.Numbered) :
    p.events[i]? = some n ↔ p.nodes.aux? n = some (.event i) := by
  rw [← Array.getElem?_toList, ← h.events, Nodes.getElem?_numbered_iff h.eventIds,
    Option.bind_eq_some_iff]
  simp [Aux.eventId?_eq_some]

theorem ascending (h : p.Numbered) : p.events.toList.Pairwise (· < ·) :=
  h.events ▸ Nodes.numbered_ascending

/-- No two events have the same number. -/
theorem inj (h : p.Numbered) (ha : p.nodes.aux? a = some (.event i))
    (hb : p.nodes.aux? b = some (.event i)) : a = b :=
  Option.some.inj ((h.event_iff.mpr ha).symm.trans (h.event_iff.mpr hb))

theorem lt_of_lt (h : p.Numbered) (ha : p.nodes.aux? a = some (.event i))
    (hb : p.nodes.aux? b = some (.event j)) (hij : i < j) : a < b :=
  (lt_iff_lt_of_ascending h.ascending (h.event_iff.mpr ha) (h.event_iff.mpr hb)).mpr hij

end Numbered

/-! ## Changes -/

/-- The list of events, and how many events and labels there are. -/
def counters (p : Pass) : Array Nat × Nat × Nat := (p.events, p.numEvents, p.numLabels)

theorem Numbered.grow (h : p.Numbered) (hq : q.nodes = p.nodes ++ new)
    (hnew : ∀ node ∈ new, node.aux.eventId? = none ∧ node.aux.labelId? = none)
    (hcount : q.counters = p.counters) : q.Numbered := by
  obtain ⟨hevents, hnum, hlabels⟩ : q.events = p.events ∧ q.numEvents = p.numEvents ∧
      q.numLabels = p.numLabels := by simpa [counters] using hcount
  have hevent : q.nodes.numbered Aux.eventId? = p.nodes.numbered Aux.eventId? := by
    rw [hq, Nodes.numbered_append_of_none fun node hn => (hnew node hn).1]
  have hlabel : q.nodes.numbered Aux.labelId? = p.nodes.numbered Aux.labelId? := by
    rw [hq, Nodes.numbered_append_of_none fun node hn => (hnew node hn).2]
  constructor
  · rw [hevent, h.events, hevents]
  · rw [hevent, h.eventIds, hnum]
  · rw [hlabel, h.labelIds, hlabels]

/-- A new event gets the next number and is listed. -/
theorem Numbered.event (h : p.Numbered) {op : UInt8}
    (hq : q.nodes = p.nodes ++ [eventNode op p.numEvents])
    (hcount : q.counters = (p.events.push p.nodes.size, p.numEvents + 1, p.numLabels)) :
    q.Numbered := by
  obtain ⟨hevents, hnum, hlabels⟩ : q.events = p.events.push p.nodes.size ∧
      q.numEvents = p.numEvents + 1 ∧ q.numLabels = p.numLabels := by
    simpa [counters] using hcount
  have hevent : q.nodes.numbered Aux.eventId? =
      p.nodes.numbered Aux.eventId? ++ [(p.nodes.size, p.numEvents)] := by
    rw [hq, Nodes.numbered_append_single rfl]
  constructor
  · rw [hevent, List.map_append, h.events, hevents, Array.toList_push]
    rfl
  · rw [hevent, List.map_append, h.eventIds, hnum, List.range_succ]
    rfl
  · rw [hq, Nodes.numbered_append_of_none (by simp [eventNode, Aux.labelId?]), h.labelIds, hlabels]

/-- A new label gets the next number. -/
theorem Numbered.label (h : p.Numbered) (hq : q.nodes = p.nodes ++ [node])
    (hevent : node.aux.eventId? = none) (hlabel : node.aux.labelId? = some p.numLabels)
    (hcount : q.counters = (p.events, p.numEvents, p.numLabels + 1)) : q.Numbered := by
  obtain ⟨hevents, hnum, hlabels⟩ : q.events = p.events ∧ q.numEvents = p.numEvents ∧
      q.numLabels = p.numLabels + 1 := by simpa [counters] using hcount
  have hkept : q.nodes.numbered Aux.eventId? = p.nodes.numbered Aux.eventId? := by
    rw [hq, Nodes.numbered_append_of_none (by simpa using hevent)]
  constructor
  · rw [hkept, h.events, hevents]
  · rw [hkept, h.eventIds, hnum]
  · rw [hq, Nodes.numbered_append_single hlabel, List.map_append, h.labelIds, hlabels,
      List.range_succ]
    rfl

theorem labelId?_callKind {command : Command} {id : Nat} :
    (Aux.marker (callKind command) id).labelId? = none := by
  unfold callKind
  split <;> rfl

theorem Obeys.numbered {o : Options} {submit : Nat} {call : CallMarker}
    (hq : Obeys o submit call p q) (h : p.Numbered) : q.Numbered := by
  cases hq with
  | beginsBuffer _ hq hctx =>
    refine h.grow hq.nodes (by simp [callNode, Aux.eventId?, Aux.labelId?]) ?_
    simpa only [counters, context, opened, pushed, beginCleared, scopeEntered, callClosed] using
      congrArg counters hctx
  | endsBuffer _ hq hctx =>
    refine h.grow hq.nodes (by simp [callNode, Aux.eventId?, Aux.labelId?]) ?_
    split at hctx
    · exact (congrArg counters hctx :)
    · exact (congrArg counters hctx :)
  | beginsLabel _ hq hctx | insertsLabel _ hq hctx =>
    exact h.label hq.nodes rfl rfl (congrArg counters hctx :)
  | endsLabel => exact { h with }
  | opensCall _ hq hctx =>
    refine h.grow hq.nodes (by simp [callNode, Aux.eventId?, labelId?_callKind]) ?_
    simpa only [counters, context, opened, pushed, scopeEnded, scopeBegun, callClosed] using
      congrArg counters hctx

/-- Every change numbers its new events and labels. -/
theorem Change.numbered (hc : p.Change q) (h : p.Numbered) : q.Numbered := by
  have hadd {node : Node} (hq : q.nodes = p.nodes ++ [node])
      (hnode : node.aux.eventId? = none ∧ node.aux.labelId? = none)
      (hcount : q.counters = p.counters) : q.Numbered :=
    h.grow hq (by simpa using hnode) hcount
  cases hc with
  | submitBegins _ _ hq hctx => exact hadd hq.nodes ⟨rfl, rfl⟩ (congrArg counters hctx :)
  | enters _ hq =>
    obtain ⟨_, _, hctx⟩ := hq.context_eq
    exact hadd hq.adds.nodes ⟨rfl, rfl⟩ (congrArg counters hctx :)
  | leaves =>
    obtain ⟨_, _, _, _, _, hleft⟩ := p.left_eq
    rw [hleft]
    exact { h with }
  | logs _ _ hq =>
    refine h.grow hq.adds.nodes (fun node hn => ?_) (congrArg counters hq.context :)
    rcases List.mem_cons.mp hn with rfl | hn
    · exact ⟨rfl, rfl⟩
    · obtain ⟨k, line, -, rfl⟩ := of_mem_packetBelow hn
      exact ⟨rfl, rfl⟩
  | works _ hq =>
    cases hq with
    | sync _ _ hq hctx => exact hadd hq.nodes ⟨rfl, rfl⟩ (congrArg counters hctx :)
    | event _ _ hq hctx => exact h.event hq.nodes (congrArg counters hctx :)
    | nothing => exact h
  | shares _ hq =>
    exact h.grow hq.adds.nodes (List.forall_mem_nil _) (congrArg counters hq.context :)
  | obeys _ _ hq => exact hq.numbered h
  | endsState _ hq hctx | presents hq hctx =>
    exact hadd hq.nodes ⟨rfl, rfl⟩ (congrArg counters hctx :)
  | marks | clears | sorts | unmarks | submitEnds => exact { h with }

end Pass

end CaptureForest
