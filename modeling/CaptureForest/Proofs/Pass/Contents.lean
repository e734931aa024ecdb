import CaptureForest.Proofs.Pass.Owners

/-! # What is below a packet

A packet is added together with the nodes below it, and is complete then. So it keeps the lines of
the words that were read when it was executed (`Pass.Packs`). -/

namespace CaptureForest.Pass

variable {o : Options} {m : Reader} {index submit n : Nat} {x : Step} {v : View} {p q : Pass}

/-- The node `n` is a packet with the given words, and is followed by the nodes below it. -/
structure Packs (o : Options) (n va : Nat) (kind : PacketKind) (header : UInt32)
    (words : Array UInt32) (q : Pass) : Prop where
  nodes : ∃ (old : Nodes) (ce : Bool) (more : List Node), old.size = n ∧
    q.nodes = old ++ (packetNode ce va kind header :: packetBelow o ce kind header words ++ more)
  owned : ∀ v ∈ View.withPackets, q.owned v n = (packetLog o n kind header words).children n

variable {buffer va : Nat} {kind : PacketKind} {header : UInt32} {words : Array UInt32}

theorem Packs.kind? (h : Packs o n va kind header words p) : p.nodes.kind? n = some .packet := by
  obtain ⟨old, ce, more, rfl, hnodes⟩ := h.nodes
  rw [hnodes]
  exact Nodes.kind?_append_head

/-- What a packet contains does not change. -/
theorem Packs.course (h : Packs o n va kind header words p) (hc : p.Course q) :
    Packs o n va kind header words q where
  nodes := by
    obtain ⟨old, ce, more, hn, hnodes⟩ := h.nodes
    obtain ⟨new, hnew⟩ := hc.nodes
    exact ⟨old, ce, more ++ new, hn, by
      rw [hnew, hnodes, Nodes.append_append_list, List.append_assoc]⟩
  owned v hv := (hc.owned_eq h.kind? nofun nofun nofun).trans (h.owned v hv)

theorem Logs.packs (h : Logs o submit buffer va kind header words p q) (hp : p.Sound) :
    Packs o p.nodes.size va kind header words q where
  nodes := ⟨p.nodes, p.onConstantEngine, [], rfl, by rw [h.adds.nodes, List.append_nil]⟩
  owned v hv := by
    rw [h.adds.owned, hp.sized.owned_eq_nil (Nat.le_refl _), Links.on_apply, if_pos hv,
      List.nil_append]

/-- A packet that is executed contains the lines of the words that are read then. -/
theorem Runs.packs (h : Runs o m index submit va kind header p q) (hp : p.Sound)
    (hs : p.submit = some submit) : ∃ words : Vector UInt32 (kind.length header),
      m.words index va (kind.length header) = .ok words ∧
        Packs o p.nodes.size va kind (words.get ⟨0, kind.length_pos header⟩) words.toArray q := by
  obtain ⟨_, words, _, -, hread, hr, hcourse⟩ := h.filed hp hs
  exact ⟨words, hread, (hr.packs hp).course hcourse⟩

/-- The packets of a pass are those that were executed, in order. -/
theorem Turns.ofKind_packet (h : Turns o m index submit p x q) (hp : p.Sound)
    (hs : p.submit = some submit) : q.nodes.ofKind .packet =
      p.nodes.ofKind .packet ++ if x.isPacket then [p.nodes.size] else [] := by
  cases h with
  | enter hq =>
    rw [hq.adds.nodes, Nodes.ofKind_append_of_ne (by simp [bufferNode])]
    exact (List.append_nil _).symm
  | leave =>
    obtain ⟨_, _, _, _, _, hleft⟩ := p.left_eq
    rw [hleft]
    exact (List.append_nil _).symm
  | skip => exact (List.append_nil _).symm
  | @packet ibIndex va kind header _ hk hq =>
    obtain ⟨-, _, word, -, hfiles⟩ := hq.sound hp hs
    obtain ⟨new, hnodes, hnew⟩ := hfiles.nodes
    have hx : (Step.packet ibIndex va kind header).isPacket := decide_eq_true hk
    rw [if_pos hx, hnodes, ← List.singleton_append, ← Nodes.append_append_list,
      Nodes.ofKind_append_of_ne]
    · exact Nodes.ofKind_append_single rfl
    · intro node hnode heq
      simpa [heq] using hnew node hnode

end CaptureForest.Pass
