import CaptureForest.Proofs.Hierarchy.Buffers
import CaptureForest.Proofs.Hierarchy.Calls
import CaptureForest.Proofs.Hierarchy.Mirror
import CaptureForest.Proofs.Pass.Sharing
import CaptureForest.Proofs.View.Merged

/-! # The order of shared packets

In all views but one a node shares its packets in the order of execution, each of them once. In the
view of calls with work a call shares what the calls without work before it shared, one after the
other, and then what it shared itself. That is in order too, unless one of those calls began a
command buffer which took packets of a call before it (`Hierarchy.ofCapture_shared`). -/

namespace CaptureForest

namespace Pass

variable {o : Options} {c : Capture} {m : Reader} {index submit : Nat} {x : Step} {p q : Pass}
  {engines : List Engine}

theorem Started.ascending (h : p.Started engines) : p.Ascending where
  owned v hv n := by
    have hne : ¬(v = .engine ∧ n = rootNode) := fun heq => absurd (heq.1 ▸ hv) (by decide)
    rw [h.owned_eq_nil hne]
    exact .nil
  shared v n _ := by
    rw [h.shared_eq_nil]
    exact .nil
  packets := by
    have hpackets : p.packets = #[] := h.remembers Pass.packets (fun _ => rfl) fun _ _ _ _ => rfl
    rw [hpackets]
    exact .nil
  beginPackets := by
    have hpackets : p.beginPackets = #[] :=
      h.remembers Pass.beginPackets (fun _ => rfl) fun _ _ _ _ => rfl
    rw [hpackets]
    exact .nil
  events := by
    have hevents : p.beginEvents = #[] :=
      h.remembers Pass.beginEvents (fun _ => rfl) fun _ _ _ _ => rfl
    rw [hevents]
    exact .nil

theorem Reached.ascending (h : p.Reached) : p.Ascending :=
  h.induct Started.ascending fun hq hc => hc.ascending hq

theorem Started.distinct (h : p.Started engines) : p.Distinct := by
  have hmarkers : p.markers = [] := h.remembers Pass.markers (fun _ => rfl) fun _ _ _ _ => rfl
  have hopen : p.openCall = none := h.remembers Pass.openCall (fun _ => rfl) fun _ _ _ _ => rfl
  exact .of_markers_eq_nil hmarkers hopen

theorem Reached.distinct (h : p.Reached) : p.Distinct := by
  have hboth := h.induct (I := fun p => p.Scoped ∧ p.Distinct)
    (fun hq => ⟨hq.scoped, hq.distinct⟩)
    fun hp hc ⟨hscoped, hq⟩ => ⟨hc.scoped hscoped, hc.distinct hp hscoped hq⟩
  exact hboth.2

/-! ## Packets of markers, step by step -/

/-- The packets of all markers are in order, and the open ones share those that wait. -/
structure Orderly (p : Pass) : Prop where
  sharing : p.Sharing
  abreast : p.Abreast

theorem Started.orderly (h : p.Started engines) : p.Orderly := by
  have hbegin : p.beginPackets = #[] :=
    h.remembers Pass.beginPackets (fun _ => rfl) fun _ _ _ _ => rfl
  have hnone {n : Nat} : p.nodes.kind? n ≠ some .marker := fun hn => by
    rcases h.kinds hn with hk | hk <;> cases hk
  exact {
    sharing := {
      sorted := fun hn => absurd hn hnone
      newest := fun _ hn => absurd hn hnone
      behind := fun hn => absurd hn hnone
      before := fun hn => absurd hn hnone
      latest := fun hn => absurd hn hnone
      taken := fun hn => absurd hn hnone }
    abreast := .of_beginPackets_eq_empty hbegin }

/-- Where submits begin and end no marker is open. -/
theorem Settles.orderly (h : p.Settles q) (hp : p.Sound) (hl : p.Orderly) : q.Orderly := by
  have hopen : q.openCall = none := Option.eq_none_iff_forall_ne_some.mpr fun c hc => by
    have hhead := h.sound.stacked.openCall c hc
    rw [h.markers] at hhead
    cases hhead
  exact {
    sharing := hl.sharing.grow hp ⟨Course.nodes h.course, h.kind, h.shared⟩
      (fun c hc => by cases hopen.symm.trans hc) fun y hy => by
        rw [h.beginPackets] at hy
        cases hy
    abreast := .of_beginPackets_eq_empty h.beginPackets }

/-- A packet that marks no call is shared by the open markers, and one that marks a call makes the
others be forgotten. -/
theorem Runs.sharing {va : Nat} {kind : PacketKind} {header : UInt32}
    (h : Runs o m index submit va kind header p q) (hr : p.Reached) (hp : p.Sound)
    (hs : p.submit = some submit) (hl : p.Orderly) : q.Sharing ∧ q.Abreast := by
  have hbuffer {buffer : Nat} (hb : p.ibs.top? = some buffer) :
      p.nodes.kind? buffer = some .ib := by
    obtain ⟨r, hmem, hn⟩ := IbStack.top?_mem hb
    exact hp.buffers r (ibs_mem hmem) _ hn
  cases h with
  | @works buffer words r s _ hb _ _ hlog hwork hshare =>
    have hsub := (congrArg Site.submit hlog.site :).trans hs
    have hrs := hlog.sound hp
    have hss := (hwork.sound hrs hsub).1
    have hcourse : p.Course s := (Course.single hp (.logs hs hb hlog)).change hrs (.works hsub hwork)
    have hspares := (hlog.spares hp hs (hbuffer hb)).trans hwork.spares
    have hsharing := (hl.sharing.logs hp hs (hbuffer hb) hlog).works hrs hwork
    -- The stack is that of `p`, and one more packet waits.
    have hstack : s.markers = p.markers ∧ s.openCall = p.openCall ∧ s.levels = p.levels ∧
        s.beginPackets = p.beginPackets.push p.nodes.size := by
      have hr : r.markers = p.markers ∧ r.openCall = p.openCall ∧ r.levels = p.levels ∧
          r.beginPackets = p.beginPackets.push p.nodes.size :=
        ⟨(congrArg Pass.markers hlog.context :), (congrArg Pass.openCall hlog.context :),
          (congrArg levels hlog.context :), (congrArg Pass.beginPackets hlog.context :)⟩
      cases hwork with
      | sync _ _ _ hctx | event _ _ _ hctx =>
        exact ⟨(congrArg Pass.markers hctx :).trans hr.1,
          (congrArg Pass.openCall hctx :).trans hr.2.1,
          (congrArg levels hctx :).trans hr.2.2.1,
          (congrArg Pass.beginPackets hctx :).trans hr.2.2.2⟩
      | nothing => exact hr
    obtain ⟨hmarkers, hopen, hlevels, hbegin⟩ := hstack
    refine hsharing.shares hss (hr.trans hcourse).nested
      (hr.distinct.congr hlevels hopen) hshare (fun a ha => ?_)
      (fun {v a x} ha hx => ?_) fun a ha y hy => ?_
    · exact Nodes.kind?_lt (hp.stacked.markers a (hmarkers ▸ ha))
    · rw [hspares.shared v a (hspares.kind ha)] at hx
      exact hp.shared_lt hx
    · rw [hmarkers] at ha
      rw [hbegin, Array.toList_push, List.mem_append, List.mem_singleton] at hy
      rw [hspares.shared _ _ (hp.stacked.markers a ha)]
      exact hy.symm.imp_right (hl.abreast a ha y)
  | @obeys buffer words call r s hb _ _ hlog hq =>
    have hsub := (congrArg Site.submit hlog.site :).trans hs
    have hrs := (hlog.sound hp).marked
    have hascending : r.Ascending := (hr.trans (Course.single hp (.logs hs hb hlog))).ascending
    have hmarked : r.marked.Ascending := hascending.congr rfl rfl rfl rfl rfl
    have hsharing : r.marked.Sharing := { hl.sharing.logs hp hs (hbuffer hb) hlog with }
    refine ⟨?_, .of_beginPackets_eq_empty rfl⟩
    exact (hsharing.obeys hrs hmarked hq).grow (hq.sound hrs hsub).1
      ⟨⟨[], Array.appendList_nil.symm⟩, id, fun _ _ _ => rfl⟩ (fun _ => id)
      (List.forall_mem_nil _)

theorem Turns.orderly (h : Turns o m index submit p x q) (hr : p.Reached) (hp : p.Sound)
    (hs : p.submit = some submit) (hl : p.Orderly) : q.Orderly := by
  cases h with
  | @enter _ _ _ q hq =>
    obtain ⟨_, _, hctx⟩ := hq.context_eq
    have hbegin : q.beginPackets = #[] := (congrArg Pass.beginPackets hctx :)
    have hopen : q.openCall = p.openCall := (congrArg Pass.openCall hctx :)
    have hspares : p.Spares q :=
      hq.adds.spares (by simp [bufferNode]) fun hc => absurd hc Links.not_mem_none
    refine ⟨hl.sharing.grow hp hspares (fun c hc => hopen ▸ hc) fun y hy => ?_,
      .of_beginPackets_eq_empty hbegin⟩
    rw [hbegin] at hy
    cases hy
  | leave =>
    obtain ⟨_, _, _, _, _, hleft⟩ := p.left_eq
    rw [hleft]
    exact ⟨hl.sharing.grow hp ⟨⟨[], Array.appendList_nil.symm⟩, id, fun _ _ _ => rfl⟩
      (fun _ hc => by cases hc) (List.forall_mem_nil _), .of_beginPackets_eq_empty rfl⟩
  | skip => exact hl
  | packet _ hq =>
    obtain ⟨hsharing, habreast⟩ := hq.sharing hr hp hs hl
    exact ⟨hsharing, habreast⟩

theorem After.orderly {t : List Signal} (h : After o c t p) : p.Orderly :=
  h.induct Started.orderly (fun _ hp hsettles hl => hsettles.orderly hp hl)
    fun hm _ hs hturns hl => hturns.orderly hm.reached hm.sound hs hl

end Pass

/-! ## Classes of calls -/

namespace Nodes

variable {nodes : Nodes} {n : Nat}

theorem kind?_of_callClass (ht : nodes.Typed) (h : Pass.callClass nodes n ≠ .noCall) :
    nodes.kind? n = some .marker := by
  unfold Pass.callClass at h
  split at h
  · rename_i id haux
    exact ht.kind?_marker haux
  · exact absurd rfl h

/-- A call without work owns no other markers. -/
theorem not_nests_of_stateCall (h : Pass.callClass nodes n = .stateCall) : ¬nodes.Nests n := by
  obtain ⟨id, haux, hnot⟩ := callClass_eq_stateCall.mp h
  rintro (hlabel | hexec)
  · rw [markerKind?, haux] at hlabel
    cases hlabel
  · cases haux.symm.trans hexec
    exact hnot .executeCommands rfl rfl

end Nodes

namespace Hierarchy

variable {o : Options} {c : Capture} {h : Hierarchy} {n : Nat}

/-- The calls whose packets a node shares in the view of calls with work: the calls without work that
stand just before it, if it is a call with work, and the node itself. -/
def callsOf (h : Hierarchy) (n : Nat) : List Nat :=
  match Pass.callClass h.nodes n, (h.forest .vulkanCall).parent? n with
  | .stateCall, _ => []
  | .eventCall, some owner =>
    trailingCalls (Pass.callClass h.nodes)
      (((h.forest .vulkanCall).children owner).toList.takeWhile (· ≠ n)) ++ [n]
  | _, _ => [n]

/-- A child splits the children of its owner. -/
theorem takeWhile_ne_append {l : List Nat} (hn : n ∈ l) :
    ∃ after, l = l.takeWhile (· ≠ n) ++ n :: after := by
  obtain ⟨before, after, rfl, hnot⟩ := List.eq_append_cons_of_mem hn
  refine ⟨after, ?_⟩
  have hbefore : ∀ m ∈ before, decide (m ≠ n) = true := fun m hm =>
    decide_eq_true fun heq => hnot (heq ▸ hm)
  rw [List.takeWhile_append_of_pos hbefore, List.takeWhile_cons_of_neg (by simp), List.append_nil]

/-- The merge of calls puts the packets of some calls one after the other. -/
theorem shared_vulkanEvent {q : Pass} (hq : q.Reached) (hp : q.Sound) (hnodes : h.nodes = q.nodes)
    (hbakes : ∀ v, (h.forest v).Bakes (q.allEdges.get v)) (n : Nat) :
    h.shared .vulkanEvent n = (h.callsOf n).flatMap (h.shared .vulkanCall) := by
  have hby (calls : List Nat) : (q.allEdges.get .vulkanCall).sharedBy calls =
      calls.flatMap (h.shared .vulkanCall) :=
    List.flatMap_congr fun a _ => by rw [shared, (hbakes .vulkanCall).shared]
  have hshared : h.shared .vulkanEvent n =
      (((q.allEdges.get .vulkanCall).merged (Pass.callClass h.nodes)).shared n).toList := by
    rw [shared, (hbakes .vulkanEvent).shared, hnodes]
    rfl
  obtain ⟨hwf, hsize⟩ := hp.wf .vulkanCall
  rw [hshared, ← hby]
  unfold callsOf
  split
  · rename_i hclass
    rw [EdgeLists.shared_merged (by simp [hclass]), if_pos hclass]
    rfl
  · rename_i owner hclass hparent
    have hmem := Array.mem_def.mp ((parent?_iff (hbakes .vulkanCall)).mp hparent)
    rw [(hbakes .vulkanCall).children] at hmem ⊢
    obtain ⟨after, hsplit⟩ := takeWhile_ne_append hmem
    have howner : Pass.callClass h.nodes owner ≠ .stateCall := fun hstate => by
      rw [hq.nested.owned_vulkanCall hp, List.mem_filter] at hmem
      rw [hnodes] at hstate hclass
      have hno := hq.nested.isNoCall_of_stateCall hq.typed
        (Nodes.callClass_eq_stateCall.mp hstate) hmem.1
      cases hclass.symm.trans (hno.callClass_eq hq.typed)
    exact EdgeLists.shared_merged_of_mem hclass howner hsplit (hwf.nodup owner)
      (fun m hm => hwf.once hm (Array.mem_def.mpr hmem)) (hwf.owned_lt (Array.mem_def.mpr hmem))
  · rename_i hstate hparent
    have hone : (q.allEdges.get .vulkanCall).sharedBy [n] =
        ((q.allEdges.get .vulkanCall).shared n).toList := List.flatMap_singleton ..
    rw [hone]
    cases hclass : Pass.callClass h.nodes n with
    | stateCall => exact (hstate hclass).elim
    | noCall => rw [EdgeLists.shared_merged (by simp [hclass]), if_neg (by simp [hclass])]
    | eventCall =>
      rw [EdgeLists.shared_merged_of_not_mem hclass fun m hm => ?_]
      refine absurd ((parent?_iff (hbakes .vulkanCall)).mpr ?_) (hparent m hclass)
      rw [Array.mem_def, (hbakes .vulkanCall).children]
      exact Array.mem_def.mp hm

/-- Calls whose packets come together are siblings, and those before the last do no work. -/
theorem callsOf_pairwise {q : Pass} (hq : q.Reached) (hp : q.Sound)
    (hbakes : ∀ v, (h.forest v).Bakes (q.allEdges.get v)) (n : Nat) :
    (h.callsOf n).Pairwise fun a b => a < b ∧ Pass.callClass h.nodes a = .stateCall ∧
      Pass.callClass h.nodes b ≠ .noCall := by
  unfold callsOf
  split
  · exact .nil
  · rename_i owner hclass hparent
    have hmem := Array.mem_def.mp ((parent?_iff (hbakes .vulkanCall)).mp hparent)
    have hlt : ((h.forest .vulkanCall).children owner).toList.Pairwise (· < ·) := by
      rw [(hbakes .vulkanCall).children, hq.nested.owned_vulkanCall hp]
      exact (hq.ascending.owned .allEvent (by decide) owner).filter _
    obtain ⟨after, hsplit⟩ := takeWhile_ne_append hmem
    rw [hsplit] at hlt
    generalize ((h.forest .vulkanCall).children owner).toList.takeWhile (· ≠ n) = before at hlt ⊢
    have hsub : (trailingCalls (Pass.callClass h.nodes) before ++ [n]).Sublist
        (before ++ n :: after) :=
      trailingCalls_sublist.append ((List.nil_sublist after).cons_cons n)
    obtain ⟨hstates, -, hlast⟩ := List.pairwise_append.mp (hlt.sublist hsub)
    refine List.pairwise_append.mpr ⟨?_, List.pairwise_singleton .., fun a ha b hb => ?_⟩
    · refine hstates.imp_of_mem fun {a b} ha hb hab => ⟨hab, of_mem_trailingCalls ha, ?_⟩
      rw [of_mem_trailingCalls hb]
      exact fun heq => by cases heq
    · refine ⟨hlast a ha b hb, of_mem_trailingCalls ha, ?_⟩
      rw [List.mem_singleton.mp hb, hclass]
      exact fun heq => by cases heq
  · exact List.pairwise_singleton ..

/-- The packets of two calls that come together are in order, unless the later one took some of
the earlier one's. -/
theorem shared_lt_shared {q : Pass} {a b x y : Nat} (hq : q.Reached) (hl : q.Orderly)
    (ha : Pass.callClass q.nodes a = .stateCall) (hb : q.nodes.kind? b = some .marker)
    (hab : a < b) (hx : x ∈ q.shared .allEvent a) (hy : y ∈ q.shared .allEvent b)
    (hdisjoint : q.nodes.Begins b → y ∉ q.shared .allEvent a) : x < y := by
  have hmarker := Nodes.kind?_of_callClass hq.typed fun heq => by cases ha.symm.trans heq
  have hnests := Nodes.not_nests_of_stateCall ha
  by_cases hbegins : q.nodes.Begins b
  · by_contra hle
    exact hdisjoint hbegins
      (hl.sharing.taken hmarker hnests hb hbegins hab hx hy (Nat.le_of_not_lt hle))
  · exact Nat.lt_trans (hl.sharing.before hmarker hnests hb hab hx)
      (hl.sharing.behind hb hbegins hy)

/-- In the view of calls a node shares what it shares in that of all events, unless it is filtered. -/
theorem shared_vulkanCall {q : Pass} (hbakes : ∀ v, (h.forest v).Bakes (q.allEdges.get v)) (n : Nat) :
    h.shared .vulkanCall n = if Pass.isNoCall q.nodes n then [] else q.shared .allEvent n := by
  have hwithout : (q.allEdges.get .vulkanCall).shared n =
      if Pass.isNoCall q.nodes n then #[] else q.edges.allEvent.shared n :=
    EdgeLists.shared_without
  rw [shared, (hbakes .vulkanCall).shared, hwithout]
  split <;> rfl

/-- In all views but that of calls with work a node shares its packets in the order of execution. -/
theorem shared_pairwise {q : Pass} {v : View} (hq : q.Reached) (hl : q.Orderly)
    (hbakes : ∀ v, (h.forest v).Bakes (q.allEdges.get v)) (hv : v ≠ .vulkanEvent) (n : Nat) :
    (h.shared v n).Pairwise (· < ·) := by
  have hpass (v : View) : (q.shared v n).Pairwise (· < ·) := by
    by_cases hk : q.nodes.kind? n = some .marker
    · exact hl.sharing.sorted hk
    · exact hq.ascending.shared v n hk
  cases v with
  | vulkanEvent => exact absurd rfl hv
  | vulkanCall =>
    rw [shared_vulkanCall hbakes]
    split
    · exact .nil
    · exact hpass .allEvent
  | engine | submit | allEvent | rgp =>
    rw [shared_eq hbakes (by decide)]
    exact hpass _

/-- In all views but that of calls with work a node shares its packets in the order of execution,
each of them once. In that view a node shares the packets of some calls, one call after the other.
These packets are in order and each is there once, exactly if no call that begins a command buffer
has a packet of a call before it. -/
theorem ofCapture_shared (hb : ofCapture o c = .ok h) :
    (∀ v, v ≠ .vulkanEvent → ∀ n, (h.shared v n).Pairwise (· < ·)) ∧
      ∀ n, h.shared .vulkanEvent n = (h.callsOf n).flatMap (h.shared .vulkanCall) ∧
        ((h.shared .vulkanEvent n).Pairwise (· < ·) ↔
          ∀ a b, [a, b].Sublist (h.callsOf n) → h.nodes.Begins b →
            (h.shared .vulkanCall a).Disjoint (h.shared .vulkanCall b)) := by
  obtain ⟨q, hafter, hnodes, hbakes⟩ := ofCapture_after hb
  have hq := hafter.reached
  have hp := hafter.sound
  have hl := hafter.orderly
  have hviews {v : View} (hv : v ≠ .vulkanEvent) (n : Nat) := shared_pairwise hq hl hbakes hv n
  refine ⟨fun _ hv => hviews hv, fun n => ⟨shared_vulkanEvent hq hp hnodes hbakes n, ?_⟩⟩
  rw [shared_vulkanEvent hq hp hnodes hbakes n, List.pairwise_flatMap]
  have hmem {a x : Nat} (hx : x ∈ h.shared .vulkanCall a) : x ∈ q.shared .allEvent a := by
    rw [shared_vulkanCall hbakes] at hx
    split at hx
    · cases hx
    · exact hx
  have hcalls := callsOf_pairwise hq hp hbakes n
  constructor
  · rintro ⟨-, hlt⟩ a b hsub - x hx hx'
    exact Nat.lt_irrefl x (List.pairwise_iff_forall_sublist.mp hlt hsub x hx x hx')
  · intro hdisjoint
    refine ⟨fun a _ => hviews (by decide) a,
      List.pairwise_iff_forall_sublist.mpr fun {a b} hsub x hx y hy => ?_⟩
    obtain ⟨hab, hstate, hclass⟩ := List.pairwise_iff_forall_sublist.mp hcalls hsub
    rw [hnodes] at hstate hclass
    refine shared_lt_shared hq hl hstate (Nodes.kind?_of_callClass hq.typed hclass) hab (hmem hx)
      (hmem hy) fun hbegins hy' => ?_
    have hno : ¬Pass.isNoCall q.nodes a := fun hno => by
      cases hstate.symm.trans ((Nodes.isNoCall_iff.mp hno).callClass_eq hq.typed)
    have hya : y ∈ h.shared .vulkanCall a := by
      rw [shared_vulkanCall hbakes, if_neg hno]
      exact hy'
    exact hdisjoint a b hsub (hnodes ▸ hbegins) hya hy

/-- A packet between two calls is carried on from the first of them, which does no work, to the second,
a draw. -/
theorem ofCapture_shared_draw :
    let c : Capture := {
      submits := [{ engine := .universal, queue := .universal, ibs := [{ va := 0, size := 6 }] }]
      memory := .flat (Words.toBytes #[Header.ofOpcode Opcode.nop 1,
        CallMarker.word .bindPipeline, Header.ofOpcode Opcode.nop 0,
        Header.ofOpcode Opcode.nop 1, CallMarker.word .draw, Header.ofOpcode Opcode.drawAuto 0]) }
    ∃ h, ofCapture {} c = .ok h ∧ h.shared .vulkanCall 9 = [10] ∧ h.shared .vulkanCall 12 = [13] ∧
      h.shared .vulkanEvent 12 = [10, 13] ∧ (h.shared .vulkanEvent 12).Pairwise (· < ·) := by
  intro c
  have hrun : ∃ h, ofCapture {} c = .ok h ∧ h.shared .vulkanCall 9 = [10] ∧
      h.shared .vulkanCall 12 = [13] ∧ h.callsOf 12 = [9, 12] ∧ ¬h.nodes.Begins 12 := by
    decide +kernel
  obtain ⟨h, hb, h9, h12, hcalls, hbegins⟩ := hrun
  obtain ⟨-, hevents⟩ := ofCapture_shared hb
  obtain ⟨hshared, hsorted⟩ := hevents 12
  refine ⟨h, hb, h9, h12, ?_, hsorted.mpr fun a b hsub hbegins' => ?_⟩
  · rw [hshared, hcalls]
    simp [h9, h12]
  · rw [hcalls] at hsub
    cases hsub.eq_of_length rfl
    exact absurd hbegins' hbegins

/-- A command buffer begins behind a call without work and takes the packet that the call shares. Both
go with the next call that does work, which so shares the packet twice. -/
theorem ofCapture_shared_twice :
    let c : Capture := {
      submits := [{ engine := .universal, queue := .universal, ibs := [{ va := 0, size := 7 }] }]
      memory := .flat (Words.toBytes #[Header.ofOpcode Opcode.nop 1,
        CallMarker.word .bindPipeline, Header.ofOpcode Opcode.nop 0,
        Header.ofOpcode Opcode.nop 1, CallMarker.word .beginCommandBuffer,
        Header.ofOpcode Opcode.nop 1, CallMarker.word .draw]) }
    (¬∀ h, ofCapture {} c = .ok h → ∀ v n, (h.shared v n).Pairwise (· < ·)) ∧
      ∃ h, ofCapture {} c = .ok h ∧ h.nodes.Begins 12 ∧ h.shared .vulkanCall 9 = [10] ∧
        h.shared .vulkanCall 12 = [10, 11] ∧ h.shared .vulkanEvent 14 = [10, 10, 11] := by
  intro c
  have hrun : ∃ h, ofCapture {} c = .ok h ∧ h.nodes.Begins 12 ∧ h.shared .vulkanCall 9 = [10] ∧
      h.shared .vulkanCall 12 = [10, 11] ∧ h.shared .vulkanEvent 14 = [10, 10, 11] := by
    decide +kernel
  refine ⟨fun hclaim => ?_, hrun⟩
  obtain ⟨h, hb, -, -, -, hshared⟩ := hrun
  have hsorted := hclaim h hb .vulkanEvent 14
  rw [hshared] at hsorted
  exact absurd hsorted (by decide)

end Hierarchy

end CaptureForest
