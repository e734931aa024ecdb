import CaptureForest.Packet.Builtin
import CaptureForest.Proofs.Hierarchy.Signals
import CaptureForest.Proofs.Packet.Fields
import CaptureForest.Proofs.Pass.Contents

/-! # The lines below the packets of a capture

The packets of a hierarchy are those that the walks execute, in order, and each has the lines of its
words below it. No word of an opcode packet has lines of both kinds, and the words without a line
are those that its layout skips (`Hierarchy.ofCapture_fields`). -/

namespace CaptureForest

namespace Pass

variable {o : Options} {c : Capture} {l : List (Nat × Step)} {n : Nat} {x : Nat × Step} {p q : Pass}

/-- The node `n` stands for the packet that a step executes. -/
def StandsFor (o : Options) (m : Reader) (q : Pass) (n : Nat) (x : Nat × Step) : Prop :=
  ∃ (ibIndex va : Nat) (kind : PacketKind) (header : UInt32)
    (words : Vector UInt32 (kind.length header)),
    x.2 = .packet ibIndex va kind header ∧ m.words x.1 va (kind.length header) = .ok words ∧
      Packs o n va kind (words.get ⟨0, kind.length_pos header⟩) words.toArray q

theorem StandsFor.course {m : Reader} (h : StandsFor o m p n x) (hc : p.Course q) :
    StandsFor o m q n x := by
  obtain ⟨ibIndex, va, kind, header, words, hx, hread, hpacks⟩ := h
  exact ⟨ibIndex, va, kind, header, words, hx, hread, hpacks.course hc⟩

/-- The packets of a pass stand for the packets of the given steps, one for one. -/
def Filed (o : Options) (m : Reader) (l : List (Nat × Step)) (q : Pass) : Prop :=
  List.Forall₂ (StandsFor o m q) (q.nodes.ofKind .packet) (l.filter (·.2.isPacket))

theorem Turns.filed {m : Reader} {index submit : Nat} {y : Step}
    (h : Turns o m index submit p y q) (hp : p.Sound) (hs : p.submit = some submit)
    (hl : Filed o m l p) : Filed o m (l ++ [(index, y)]) q := by
  have hold := hl.imp fun _ _ hn => hn.course (h.course hp hs)
  rw [Filed, h.ofKind_packet hp hs, List.filter_append]
  cases hy : y.isPacket with
  | false => simpa [hy] using hold
  | true =>
    have hnew : StandsFor o m q p.nodes.size (index, y) := by
      cases h with
      | enter | leave | skip => cases hy
      | packet _ hq =>
        obtain ⟨words, hread, hpacks⟩ := hq.packs hp hs
        exact ⟨_, _, _, _, words, rfl, hread, hpacks⟩
    simpa [hy] using List.rel_append hold (.cons hnew .nil)

theorem After.filed {t : List Signal} (h : After o c t p) :
    Filed o c.memory (t.filterMap Signal.step?) p := by
  refine h.follow (fun hq _ => ?_) (fun _ _ hsettles hl => ?_) fun hm _ hs hturns hl =>
    hturns.filed hm.sound hs hl
  · rw [Filed, hq.ofKind_eq_nil (by decide)]
    exact .nil
  · obtain ⟨new, hnodes, hnew⟩ := hsettles.nodes
    rw [Filed, hnodes, Nodes.ofKind_append_of_ne fun node hnode => (hnew node hnode).1]
    exact hl.imp fun _ _ hn => hn.course hsettles.course

variable {va : Nat} {kind : PacketKind} {header : UInt32} {words : Array UInt32}

theorem Packs.node (h : Packs o n va kind header words p) :
    ∃ ce, p.nodes[n]? = some (packetNode ce va kind header) := by
  obtain ⟨old, ce, more, rfl, hnodes⟩ := h.nodes
  exact ⟨ce, hnodes ▸ Nodes.getElem?_append_head⟩

/-- The fields below an opcode packet are the nodes behind it, a line for each. -/
theorem Packs.children {op : UInt8} {v : View} {ce : Bool} (h : Packs o n va kind header words p)
    (hnode : p.nodes[n]? = some (packetNode ce va kind header))
    (hop : kind.opcode? header = some op) (hv : v ∈ View.withPackets) :
    (p.owned v n).map (p.nodes[·]?) =
      (o.layouts.fieldLines op words).map (some <| regFieldNode ce .field ·) := by
  obtain ⟨old, ce', more, rfl, hnodes⟩ := h.nodes
  rw [packetBelow, hop, List.cons_append] at hnodes
  obtain rfl : ce' = ce := by
    rw [hnodes, Nodes.getElem?_append_head] at hnode
    cases hnode
    rfl
  have howned : p.owned v old.size =
      List.range' (old.size + 1) (o.layouts.fieldLines op words).length := by
    rw [h.owned v hv, packetLog, hop]
    exact EdgeLog.children_fan
  rw [howned, hnodes]
  refine List.ext_getElem? fun i => ?_
  rw [List.getElem?_map, List.getElem?_map]
  rcases Nat.lt_or_ge i (o.layouts.fieldLines op words).length with hlt | hge
  · rw [List.getElem?_range' hlt, Option.map_some, Nat.one_mul, Nat.add_assoc,
      Nodes.getElem?_append_new, Nat.add_comm 1 i, List.getElem?_cons_succ,
      List.getElem?_append_left (by simpa using hlt), List.getElem?_map,
      List.getElem?_eq_getElem hlt]
    rfl
  · rw [List.getElem?_eq_none (by simpa using hge), List.getElem?_eq_none hge]
    rfl

end Pass

namespace Hierarchy

open Layouts in
/-- Below the `op` packet `n` stand the lines of the given words. -/
structure Lists (o : Options) (h : Hierarchy) (n : Nat) (ce : Bool) (op : UInt8)
    (words : Array UInt32) : Prop where
  /-- First come the lines of fields, then raw lines. -/
  lines : ∀ v ∈ View.withPackets, ((h.forest v).children n).toList.map (h.nodes[·]?) =
    ((o.layouts.listed op words.size).map (fun f =>
        f.text o.layouts (f.value (words.getD f.word 0))) ++
      (o.layouts.rawWords op words.size).map fun d => rawText d (words.getD d 0)).map
        (some <| Pass.regFieldNode ce .field ·)
  /-- If the fields ascend and there are some, or there is no layout, a word of the payload has lines
  of one kind unless the layout skips it, and never of both. -/
  words : Ascending (o.layouts.fieldsOf op) →
    (∀ layout, o.layouts.packet? op = some layout → layout.fields ≠ []) →
    ∀ d, 0 < d → d < words.size →
      ((∃ f ∈ o.layouts.listed op words.size, f.word = d) ∨ d ∈ o.layouts.rawWords op words.size ↔
        ¬o.layouts.Skips op words.size d) ∧
      ¬((∃ f ∈ o.layouts.listed op words.size, f.word = d) ∧ d ∈ o.layouts.rawWords op words.size)

/-- The packets of a hierarchy are those that the walks execute, in order, and below an opcode
packet stand the lines of the words that were read. -/
theorem ofCapture_fields {o : Options} {c : Capture} {h : Hierarchy} (hb : ofCapture o c = .ok h) :
    List.Forall₂ (fun n x => ∃ (ibIndex va : Nat) (kind : PacketKind) (header : UInt32) (ce : Bool)
        (words : Vector UInt32 (kind.length header)),
      x.2 = .packet ibIndex va kind header ∧
      c.memory.words x.1 va (kind.length header) = .ok words ∧
      h.nodes[n]? = some (Pass.packetNode ce va kind (words.get ⟨0, kind.length_pos header⟩)) ∧
      ∀ op, kind.opcode? (words.get ⟨0, kind.length_pos header⟩) = some op →
        h.Lists o n ce op words.toArray)
      (h.nodes.ofKind .packet) (c.walked.filter (·.2.isPacket)) := by
  obtain ⟨q, hq, hbecomes⟩ := ofCapture_becomes hb
  have hfiled := hq.filed
  rw [c.signals_steps] at hfiled
  rw [hbecomes.nodes]
  refine hfiled.imp fun n x hn => ?_
  obtain ⟨ibIndex, va, kind, header, words, hx, hread, hpacks⟩ := hn
  obtain ⟨ce, hnode⟩ := hpacks.node
  refine ⟨ibIndex, va, kind, header, ce, words, hx, hread, hnode, fun op hop => ?_⟩
  refine ⟨fun v hv => ?_, fun hascending hne d => Layouts.listed_or_raw hascending hne⟩
  have hchildren : ((h.forest v).children n).toList = q.owned v n := by
    rw [(hbecomes.forests v).children, Pass.allEdges_get hv]
    rfl
  rw [hchildren, hbecomes.nodes, hpacks.children hnode hop hv, Layouts.fieldLines_eq]

/-- A packet with a field in its first word and none behind it. -/
theorem ofCapture_fields_setMarker :
    let c : Capture := {
      submits := [{ engine := .universal, queue := .universal, ibs := [{ va := 0, size := 3 }] }]
      memory := .flat (Words.toBytes #[Header.ofOpcode Opcode.setMarker 2, 0x15, 6]) }
    ∃ h words, ofCapture {} c = .ok h ∧ h.nodes.ofKind .packet = [8] ∧
      h.Lists {} 8 false Opcode.setMarker words ∧ words.size = 3 := by
  intro c
  have hrun : ∃ h, ofCapture {} c = .ok h ∧ h.nodes.ofKind .packet = [8] ∧
      h.nodes.aux? 8 = some (.packet 0 Opcode.setMarker false) := by
    decide +kernel
  have hwalked : c.walked.filter (·.2.isPacket) =
      [(0, .packet 0 0 .type7 (Header.ofOpcode Opcode.setMarker 2))] := by
    decide +kernel
  obtain ⟨h, hb, hpackets, haux⟩ := hrun
  have hlists := ofCapture_fields hb
  rw [hpackets, hwalked] at hlists
  obtain ⟨_, _, _, _, ce, words, hx, -, hnode, hlists⟩ := (List.forall₂_cons.mp hlists).1
  cases hx
  rw [Nodes.aux?, hnode] at haux
  obtain ⟨-, hop, rfl⟩ := Aux.packet.inj (Option.some.inj haux)
  exact ⟨h, words.toArray, hb, hpackets, hlists _ (congrArg some hop), words.size_toArray⟩

/-- The fields of a dispatch begin at its second word: the first has no line. -/
theorem ofCapture_skips_dispatch :
    let c : Capture := {
      submits := [{ engine := .universal, queue := .universal, ibs := [{ va := 0, size := 3 }] }]
      memory := .flat (Words.toBytes #[Header.ofOpcode Opcode.dispatch 2, 7, 9]) }
    let l := Layouts.builtin
    Layouts.Ascending (l.fieldsOf Opcode.dispatch) ∧ l.fieldsOf Opcode.dispatch ≠ [] ∧
      (∃ h, ofCapture {} c = .ok h ∧ h.nodes.kind? 8 = some .packet ∧
        ((h.forest .allEvent).children 8).toList.map (fun n => h.nodes[n]?.map (·.description)) =
          [some "NGROUPS_X: 0x9"]) ∧
      ¬∀ d, 0 < d → d < 3 →
        (∃ f ∈ l.listed Opcode.dispatch 3, f.word = d) ∨ d ∈ l.rawWords Opcode.dispatch 3 := by
  refine ⟨by decide, by decide, by decide +kernel, fun hclaim => ?_⟩
  exact absurd (hclaim 1 (by decide) (by decide)) (by decide)

end Hierarchy

end CaptureForest
