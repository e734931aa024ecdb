import CaptureForest.Proofs.Hierarchy.Begins
import CaptureForest.Proofs.Hierarchy.Numbers
import CaptureForest.Proofs.Hierarchy.Sharing
import CaptureForest.Proofs.Pass.Order
import CaptureForest.Proofs.View.Preorder
import Mathlib.Data.List.Infix

/-! # Events in preorder

The preorder of the view of all events visits the events in the order of execution, as far as command
buffers begin in place. Only what is below the marker of a command buffer that begins out of place can
be visited too late, and only what is below the call that executes it too early
(`Hierarchy.ofCapture_preorder`). -/

namespace CaptureForest

namespace Pass

variable {o : Options} {c : Capture} {m : Reader} {index submit n : Nat} {x : Step} {p q r : Pass}
  {Z Y : Nat → Prop} {engines : List Engine}

/-! ## Starts -/

theorem Started.ordered (h : p.Started engines) : p.Ordered Z Y := by
  have hmarkers : p.markers = [] := h.remembers Pass.markers (fun _ => rfl) fun _ _ _ _ => rfl
  have hsubmit : p.submit = none := h.remembers Pass.submit (fun _ => rfl) fun _ _ _ _ => rfl
  have hscope : p.scope = none := h.remembers Pass.scope (fun _ => rfl) fun _ _ _ _ => rfl
  have hwaiting : p.waiting = [] := h.remembers waiting (fun _ => rfl) fun _ _ _ _ => rfl
  have hends {n : Nat} : ¬p.nodes.EndsRun n := by
    rintro ⟨k, hk, hends⟩
    rcases h.kinds hk with rfl | rfl <;> cases hends
  have hopens : p.opens = [] := by rw [opens, hmarkers, hsubmit]; rfl
  exact {
    branched := ⟨fun ha => absurd ha hends, fun _ he => absurd he hends, hopens ▸ .nil⟩
    tied := .none hscope
    waits := fun he => absurd he hends }

/-! ## Steps -/

theorem Reached.ordered (h : p.Reached) (hp : p.Sound) (hc : p.Change q)
    (hplaces : ∀ {submit}, p.submit = some submit → q.nodes.Begins p.nodes.size →
      p.Places Z Y submit) (hl : p.Ordered Z Y) : q.Ordered Z Y :=
  hc.ordered hp h.apart h.ascending h.scoped h.distinct h.typed hplaces hl

/-- Where no command buffer begins, events stay in order. -/
theorem Course.ordered (h : p.Course q) (hr : p.Reached) (hl : p.Ordered Z Y)
    (hbegins : ∀ n, q.nodes.Begins n → p.nodes.Begins n) : q.Ordered Z Y := by
  suffices hboth : q.Reached ∧ (∃ new : List Node, q.nodes = p.nodes ++ new) ∧
      ((∀ n, q.nodes.Begins n → p.nodes.Begins n) → q.Ordered Z Y) from hboth.2.2 hbegins
  refine h.induct (I := fun r => r.Reached ∧ (∃ new : List Node, r.nodes = p.nodes ++ new) ∧
    ((∀ n, r.nodes.Begins n → p.nodes.Begins n) → r.Ordered Z Y))
    ⟨hr, ⟨[], Array.appendList_nil.symm⟩, fun _ => hl⟩
    fun {r s} hsound hc ⟨hreached, ⟨new, hnew⟩, hordered⟩ => ?_
  obtain ⟨more, hmore⟩ := hc.nodes
  refine ⟨hreached.change hsound hc,
    ⟨new ++ more, by rw [hmore, hnew, Nodes.append_append_list]⟩, fun hs => ?_⟩
  refine hreached.ordered hsound hc (fun _ hn => ?_) (hordered fun n hn => hs n ?_)
  · have hlt := Nodes.aux?_lt (hs _ hn)
    rw [hnew, Nodes.size_append_list] at hlt
    exact absurd hlt (Nat.not_lt.mpr (Nat.le_add_right _ _))
  · rw [hmore]
    exact Nodes.aux?_append hn

/-- A packet that is filed does not change where a command buffer is in place. -/
theorem InPlace.logs {buffer va : Nat} {kind : PacketKind} {header : UInt32} {words : Array UInt32}
    (h : p.InPlace submit) (hp : p.Sound) (hs : p.submit = some submit)
    (hq : Logs o submit buffer va kind header words p q) : q.InPlace submit := by
  have hwaiting : q.waiting = p.waiting := (congrArg waiting hq.context :)
  have hinner : q.callClosed.innermost submit = p.callClosed.innermost submit :=
    (congrArg (fun r : Pass => r.callClosed.innermost submit) hq.context :)
  have howner : q.bufferOwner submit = p.bufferOwner submit :=
    (congrArg (Pass.bufferOwner · submit) hq.context :)
  have hstart : p.callClosed.innermost submit < p.nodes.size := by
    obtain ⟨_, hk, -⟩ := hp.callClosed.innermost hs
    exact Nodes.kind?_lt hk
  suffices hpath : ∀ {w}, Relation.ReflTransGen (Last (p.owned .allEvent) p.waiting)
      (p.callClosed.innermost submit) w → Relation.ReflTransGen (Last (q.owned .allEvent) q.waiting)
        (q.callClosed.innermost submit) w ∧ w < p.nodes.size by
    rw [InPlace, howner]
    exact (hpath h).1
  intro w hpath
  rw [hinner, hwaiting]
  induction hpath with
  | refl => exact ⟨.refl, hstart⟩
  | tail _ hlast ih =>
    refine ⟨ih.1.tail ?_, (hp.inside hlast.mem).2⟩
    rw [Last, hq.owned_old ih.2]
    exact hlast

/-- Every step keeps events in order, if it places the command buffer that it begins. -/
theorem Turns.ordered (h : Turns o m index submit p x q) (hr : p.Reached) (hp : p.Sound)
    (hs : p.submit = some submit) (hl : p.Ordered Z Y)
    (hplaces : ∀ n, x.command? m index = some .beginCommandBuffer → q.openCall = some n →
      p.InPlace submit ∨ Z n ∧ (p.nodes.Executes (p.bufferOwner submit) →
        Y (p.bufferOwner submit))) : q.Ordered Z Y := by
  by_cases hx : x.command? m index = some .beginCommandBuffer
  · cases h with
    | enter | leave => cases hx
    | skip =>
      rw [Step.command?, Step.call?_unknown] at hx
      cases hx
    | packet _ hq =>
      cases hq with
      | works _ hw hc =>
        rw [Step.command?, Step.call?_packet hw, hc] at hx
        cases hx
      | @obeys _ _ call r s hb hw hc hlog hq =>
        have hsub : r.submit = some submit := (congrArg Site.submit hlog.site :).trans hs
        have hrs := hlog.sound hp
        have hrr : r.Reached := hr.change hp (.logs hs hb hlog)
        have hpacket : ¬r.nodes.Begins p.nodes.size := fun hn => by
          cases hlog.packet_kind?.symm.trans (hrr.typed.kind?_marker hn)
        have hordered : r.Ordered Z Y :=
          hr.ordered hp (.logs hs hb hlog) (fun _ hn => absurd hn hpacket) hl
        have hmarked : r.marked.Ordered Z Y := { hordered with }
        have hrm : r.marked.Reached := hrr.change hrs .marks
        refine (hmarked.obeys hrs.marked hrm.ascending hrm.scoped hrm.distinct hrm.typed hsub hq
          fun hn => ?_).beginCleared
        have hopen : s.openCall = some r.nodes.size := by
          refine (hq.begins_cases hn).elim (fun hn => ?_) fun hbegin => hbegin.2.1
          exact absurd (Nodes.aux?_lt hn) (Nat.lt_irrefl _)
        have howner : r.bufferOwner submit = p.bufferOwner submit :=
          (congrArg (Pass.bufferOwner · submit) hlog.context :)
        refine (hplaces _ hx hopen).imp (fun hin => ?_) fun hstrays => ⟨hstrays.1, fun hn => ?_⟩
        · have hin := hin.logs hp hs hlog
          exact hin
        · have hn : r.nodes.Executes (r.bufferOwner submit) := hn
          show Y (r.bufferOwner submit)
          rw [howner] at hn ⊢
          obtain ⟨_, hk, -⟩ := hp.bufferOwner hs
          rw [Nodes.Executes, hlog.adds.nodes, Nodes.aux?_append_old (Nodes.kind?_lt hk)] at hn
          exact hstrays.2 hn
  · refine (h.course hp hs).ordered hr hl fun n hn => ?_
    exact (h.begins_cases hn).resolve_right fun hbegin => hx hbegin.1

/-! ## Command buffers out of place -/

/-- In the pass `p` a command buffer begins out of place, and `n` is its marker. -/
structure Strays (o : Options) (c : Capture) (p : Pass) (submit n : Nat) : Prop where
  begun : ∃ before s t x, Begun o c before s t x p n
  during : p.submit = some submit
  out : ¬p.InPlace submit

theorem After.ordered {t : List Signal} (h : After o c t p) :
    p.Ordered (fun n => ∃ q submit, Strays o c q submit n) fun w =>
      ∃ q submit n, Strays o c q submit n ∧ q.nodes.Executes w ∧ q.bufferOwner submit = w := by
  refine h.induct Started.ordered (fun hr hp hsettles hl => ?_)
    fun {before s t x submit q r} hm hm' hsubmit hturns hl => ?_
  · exact hsettles.course.ordered hr hl fun n hn => hsettles.begins hr.typed hn
  · refine hturns.ordered hm.reached hm.sound hsubmit hl fun n hx hopen => ?_
    by_cases hin : q.InPlace submit
    · exact .inl hin
    · have hstrays : Strays o c q submit n :=
        ⟨⟨before, s, t, x, hm, hx, r, hm', hopen⟩, hsubmit, hin⟩
      exact .inr ⟨⟨q, submit, hstrays⟩, fun hexec => ⟨q, submit, n, hstrays, hexec, rfl⟩⟩

end Pass

namespace Hierarchy

open Relation

variable {o : Options} {c : Capture} {h : Hierarchy} {q : Pass} {a b n i j : Nat}

/-! ## Events -/

theorem toOption_eventId (hn : (h.eventId n).toOption = some i) : h.eventId n = .ok i := by
  cases hid : h.eventId n with
  | error e =>
    rw [hid] at hn
    cases hn
  | ok j =>
    rw [hid] at hn
    cases hn
    rfl

/-- The numbers of the events, in the order in which the walk of the view of all events visits them. -/
def walkedEvents (h : Hierarchy) : List Nat :=
  (h.forest .allEvent).preorder.toList.filterMap fun n => (h.eventId n).toOption

/-! ## The walk -/

theorem IsForest.rooted {v : View} {g : EdgeLists} (hf : h.IsForest v)
    (hb : (h.forest v).Bakes g) : (h.forest v).Rooted where
  owner {n c r} := by rw [hb.children, hb.owner]
  root := Option.map_eq_none_iff.mp hf.root

section

variable (hafter : Pass.After o c c.signals q) (hnodes : h.nodes = q.nodes)
  (hbakes : ∀ v, (h.forest v).Bakes (q.allEdges.get v))

include hbakes

theorem children_allEvent :
    (fun n => ((h.forest .allEvent).children n).toList) = q.owned .allEvent :=
  funext fun n => by
    rw [(hbakes .allEvent).children, Pass.allEdges_get (by decide)]
    rfl

theorem over_iff_owns :
    Over (q.owned .allEvent) a b ↔ ReflTransGen (h.Owns .allEvent) a b := by
  have howns : h.Owns .allEvent = fun a b => b ∈ q.owned .allEvent a :=
    funext₂ fun _ _ => propext (owns_iff hbakes (by decide))
  rw [howns]
  rfl

include hafter hnodes

/-- All events are below the root, where the walk starts. -/
theorem over_root_event (hn : h.nodes.kind? n = some .event) :
    (h.forest .allEvent).Over rootNode n := by
  rw [Forest.Over, children_allEvent hbakes]
  rw [hnodes] at hn
  exact hafter.sound.arranged.reachable hn rfl (by decide) (by decide)

theorem preorder_visits (hforest : h.IsForest .allEvent) :
    (h.forest .allEvent).Visits [rootNode] (h.forest .allEvent).preorder.toList ∧
      (h.forest .allEvent).preorder.toList.Nodup := by
  refine (hforest.rooted (hbakes .allEvent)).preorder ?_
  rw [hforest.size, numNodes, hnodes]
  exact Nodes.kind?_lt (hafter.sound.arranged.root.mpr rfl)

end

/-- In the view of all events the event `a` is below the marker `n` of a command buffer that begins out
of place, and `b` is not, or `b` is below the call that executes it, and `a` is not. -/
def Torn (h : Hierarchy) (o : Options) (c : Capture) (a b : Nat) : Prop :=
  ∃ q submit n, Pass.Strays o c q submit n ∧
    (ReflTransGen (h.Owns .allEvent) n a ∧ ¬ReflTransGen (h.Owns .allEvent) n b ∨
      q.nodes.Executes (q.bufferOwner submit) ∧
        ReflTransGen (h.Owns .allEvent) (q.bufferOwner submit) b ∧
        ¬ReflTransGen (h.Owns .allEvent) (q.bufferOwner submit) a)

/-- Two events that are not torn apart are visited in the order of execution. -/
theorem sublist_preorder (hafter : Pass.After o c c.signals q) (hnodes : h.nodes = q.nodes)
    (hbakes : ∀ v, (h.forest v).Bakes (q.allEdges.get v)) (hforest : h.IsForest .allEvent)
    (ha : h.eventId a = .ok i) (hb : h.eventId b = .ok j) (hij : i < j) (htorn : ¬h.Torn o c a b) :
    [a, b].Sublist (h.forest .allEvent).preorder.toList := by
  obtain ⟨hka, ha⟩ := eventId_eq_ok ha
  obtain ⟨hkb, hb⟩ := eventId_eq_ok hb
  have hroot := over_root_event hafter hnodes hbakes hka
  rw [hnodes] at hka ha hkb hb
  have hab := hafter.reached.numbered.lt_of_lt ha hb hij
  rcases hafter.ordered.branched.events ⟨_, hka, rfl⟩ ⟨_, hkb, rfl⟩ hab with
    hahead | ⟨n, ⟨r, submit, hstrays⟩, hna, hnb⟩ | ⟨_, ⟨r, submit, n, hstrays, hexec, rfl⟩, hwb, hwa⟩
  · rw [← children_allEvent hbakes] at hahead
    obtain ⟨hvisits, -⟩ := preorder_visits hafter hnodes hbakes hforest
    exact hvisits.ahead (hforest.rooted (hbakes .allEvent)) hroot hahead
  · rw [over_iff_owns hbakes] at hna hnb
    exact absurd ⟨r, submit, n, hstrays, .inl ⟨hna, hnb⟩⟩ htorn
  · rw [over_iff_owns hbakes] at hwb hwa
    exact absurd ⟨r, submit, n, hstrays, .inr ⟨hexec, hwb, hwa⟩⟩ htorn

/-- The walk of the view of all events visits every draw, dispatch and blit once, and it visits them in
the order of execution if all command buffers begin in place. If some do not, then it still visits two
events in the order of execution unless they are torn apart by one of these. -/
theorem ofCapture_preorder (hb : ofCapture o c = .ok h) :
    (∀ n, h.nodes.kind? n = some .event → (∃ i, h.eventId n = .ok i) ∧
        (h.forest .allEvent).preorder.toList.count n = 1) ∧
      ((∀ q submit n, ¬Pass.Strays o c q submit n) → h.walkedEvents.Pairwise (· < ·)) ∧
      ∀ a b i j, h.eventId a = .ok i → h.eventId b = .ok j → i < j → ¬h.Torn o c a b →
        [a, b].Sublist (h.forest .allEvent).preorder.toList := by
  have hforest := isForest_of_finishes ((ofCapture_spec o c).1 h hb) .allEvent
  obtain ⟨q, hafter, hnodes, hbakes⟩ := ofCapture_after hb
  obtain ⟨hvisits, hnodup⟩ := preorder_visits hafter hnodes hbakes hforest
  have horder {a b i j : Nat} (ha : h.eventId a = .ok i) (hb : h.eventId b = .ok j) (hij : i < j) :=
    sublist_preorder hafter hnodes hbakes hforest ha hb hij
  refine ⟨fun n hn => ⟨?_, ?_⟩, fun hnone => ?_, fun a b i j => horder⟩
  · exact exists_eventId (hnodes ▸ hafter.reached.typed) hn
  · exact List.count_eq_one_of_mem hnodup (hvisits.mem (over_root_event hafter hnodes hbakes hn))
  · rw [walkedEvents, List.pairwise_filterMap]
    refine List.pairwise_iff_forall_sublist.mpr fun {a b} hsub i hi j hj => ?_
    have hi := toOption_eventId hi
    have hj := toOption_eventId hj
    rcases Nat.lt_trichotomy i j with hij | rfl | hji
    · exact hij
    · have heq := hafter.reached.numbered.inj (hnodes ▸ (eventId_eq_ok hi).2)
        (hnodes ▸ (eventId_eq_ok hj).2)
      exact absurd (heq ▸ hsub) (List.nodup_iff_sublist.mp hnodup a)
    · have hswap : [b, a].Sublist (h.forest .allEvent).preorder.toList := by
        refine horder hj hi hji ?_
        rintro ⟨r, submit, n, hstrays, -⟩
        exact hnone r submit n hstrays
      exact absurd hswap (Forest.not_sublist_swap hnodup hsub)

/-- A command buffer that is executed by a call begins in place, as the call was the last. -/
theorem ofCapture_preorder_secondary :
    let s : Submit :=
      { engine := .universal, queue := .universal, ibs := [{ va := 0, size := 7 }] }
    let c : Capture := {
      submits := [s]
      memory := .flat (Words.toBytes #[Header.ofOpcode Opcode.nop 1,
        CallMarker.word .executeCommands, Header.ofOpcode Opcode.callPfe 3, 28, 0, 3,
        Header.ofOpcode Opcode.drawAuto 0, Header.ofOpcode Opcode.nop 1,
        CallMarker.word .beginCommandBuffer, Header.ofOpcode Opcode.drawAuto 0]) }
    ∃ h, ofCapture {} c = .ok h ∧ h.nodes.Begins 16 ∧ h.eventId 18 = .ok 0 ∧ h.eventId 20 = .ok 1 ∧
      (∀ q submit n, ¬Pass.Strays {} c q submit n) ∧ h.walkedEvents.Pairwise (· < ·) := by
  intro s c
  have hrun : ∃ h, ofCapture {} c = .ok h ∧ h.nodes.Begins 16 ∧ h.eventId 18 = .ok 0 ∧
      h.eventId 20 = .ok 1 := by
    decide +kernel
  obtain ⟨h, hb, hbegins, hfirst, hsecond⟩ := hrun
  have hplaces : ∀ u ∈ (Walk.steps c.memory 0 s.ibs).inits, ∀ x ∈ u.getLast?,
      x.command? c.memory 0 = some .beginCommandBuffer →
      Succeeds (Pass.upTo {} c [] s u.dropLast) {} fun _ q => q.submit = some 6 ∧
        q.callClosed.innermost 6 = 6 ∧ q.bufferOwner 6 = 9 ∧
        ((q.owned .allEvent 6).filter (· ∉ q.waiting)).getLast? = some 9 := by
    decide +kernel
  have hnone (q : Pass) (submit n : Nat) : ¬Pass.Strays {} c q submit n := by
    rintro ⟨⟨before, s', t, x, hmoment, hx, r, hnext, -⟩, hsubmit, hout⟩
    obtain ⟨after, hlisted⟩ := hmoment.listed
    rcases List.append_eq_singleton_iff.mp hlisted.symm with ⟨rfl, heq⟩ | ⟨-, heq⟩
    · cases heq
      have hlast : x ∈ (t ++ [x]).getLast? := List.getLast?_concat
      have hrun := hplaces (t ++ [x]) ((List.mem_inits _ _).mpr hnext.steps) x hlast hx
      rw [List.dropLast_concat] at hrun
      obtain ⟨hsix, hinner, howner, hpath⟩ := hrun.of_ok hmoment.run
      cases hsix.symm.trans hsubmit
      refine hout ?_
      rw [Pass.InPlace, hinner, howner]
      exact .single hpath
    · cases heq
  obtain ⟨-, hsorted, -⟩ := ofCapture_preorder hb
  exact ⟨h, hb, hbegins, hfirst, hsecond, hnone, hsorted hnone⟩

/-- A command buffer begins behind the begin of a label. Its draw is visited after that of the label,
which is executed later. -/
theorem ofCapture_preorder_label :
    let c : Capture := {
      submits := [{ engine := .universal, queue := .universal, ibs := [{ va := 0, size := 8 }] }]
      memory := .flat (Words.toBytes #[Header.ofOpcode Opcode.nop 1,
        CallMarker.word .beginDebugUtilsLabel, Header.ofOpcode Opcode.nop 1,
        CallMarker.word .beginCommandBuffer, Header.ofOpcode Opcode.drawAuto 0,
        Header.ofOpcode Opcode.nop 1, CallMarker.word .endCommandBuffer,
        Header.ofOpcode Opcode.drawAuto 0]) }
    (¬∀ h, ofCapture {} c = .ok h → h.walkedEvents.Pairwise (· < ·)) ∧
      ∃ h, ofCapture {} c = .ok h ∧ h.eventId 13 = .ok 0 ∧ h.eventId 17 = .ok 1 ∧
        (h.forest .allEvent).preorder.toList = [0, 6, 9, 15, 17, 11, 13] ∧
        h.walkedEvents = [1, 0] := by
  intro c
  have hrun : ∃ h, ofCapture {} c = .ok h ∧ h.eventId 13 = .ok 0 ∧ h.eventId 17 = .ok 1 ∧
      (h.forest .allEvent).preorder.toList = [0, 6, 9, 15, 17, 11, 13] ∧
      h.walkedEvents = [1, 0] := by
    decide +kernel
  refine ⟨fun hclaim => ?_, hrun⟩
  obtain ⟨h, hb, -, -, -, hwalked⟩ := hrun
  have hsorted := hclaim h hb
  rw [hwalked] at hsorted
  exact absurd hsorted (by decide)

end Hierarchy

end CaptureForest
