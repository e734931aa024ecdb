import CaptureForest.Proofs.Pass.Call
import CaptureForest.Proofs.View.Bake
import Mathlib.Data.List.Nodup
import Mathlib.Logic.Relation

/-! # Arrangements

`View.owns` says which kinds of nodes own which in a view. In an `Arranged` pass owners and
children fit together, no node has two owners, and every node that a view lists has one. As a child
comes behind its owner, or is an event and owns nothing, there are no cycles
(`Arranged.acyclic`), and every listed node can be reached from the root (`Arranged.reachable`). -/

namespace CaptureForest

namespace NodeKind

/-- The kind of a node that ends a run of packets. -/
def endsRun : NodeKind → Bool
  | .event | .sync => true
  | _ => false

theorem mem_all (k : NodeKind) : k ∈ all := by cases k <;> decide

theorem of_endsRun {k : NodeKind} (h : k.endsRun) : k = .event ∨ k = .sync := by
  revert h
  cases k <;> decide

/-- What is listed below a packet. -/
def ownsField : NodeKind → NodeKind → Bool
  | .packet, .reg | .packet, .field | .reg, .field => true
  | _, _ => false

/-- What owns what in the views that list buffers; only one of them lists engines. -/
def ownsBuffer : NodeKind → NodeKind → Bool
  | .submit, .ib | .ib, .ib => true
  | a, b => ownsField a b

/-- What owns what in the views that list events. -/
def ownsEvent : NodeKind → NodeKind → Bool
  | .root, .submit | .root, .present | .submit, .postambleState => true
  | .submit, .marker | .submit, .event | .submit, .sync => true
  | .marker, .marker | .marker, .event | .marker, .sync => true
  | a, b => ownsField a b

end NodeKind

namespace View

theorem mem_all (v : View) : v ∈ all := by cases v <;> decide

instance {P : View → Prop} [DecidablePred P] : Decidable (∀ v, P v) :=
  decidable_of_iff (∀ v ∈ all, P v) ⟨fun h v => h v (mem_all v), fun h v _ => h v⟩

/-- What owns what in a view. -/
def owns : View → NodeKind → NodeKind → Bool
  | .engine, .root, .engine | .engine, .engine, .submit | .submit, .root, .submit => true
  | .engine, a, b | .submit, a, b => a.ownsBuffer b
  | .allEvent, a, b | .rgp, a, b => a.ownsEvent b
  | .vulkanCall, _, _ | .vulkanEvent, _, _ => false

/-- The nodes of a kind have an owner in a view. -/
def places (v : View) (k : NodeKind) : Bool := NodeKind.all.any fun a => v.owns a k

theorem places_of_owns {v : View} {a k : NodeKind} (h : v.owns a k) : v.places k :=
  List.any_eq_true.mpr ⟨a, a.mem_all, h⟩

theorem not_owns_of_endsRun {v : View} {a b : NodeKind} (h : a.endsRun) : ¬v.owns a b := by
  revert h
  cases a <;> cases v <;> cases b <;> decide

theorem not_owns_packet {v : View} {a : NodeKind} : ¬v.owns a .packet := by
  cases a <;> cases v <;> decide

theorem not_owns_root {v : View} {a : NodeKind} : ¬v.owns a .root := by
  cases a <;> cases v <;> decide

theorem owns_marker {v : View} {a : NodeKind} (hv : v ∈ withEvents)
    (ha : a = .submit ∨ a = .marker) : v.owns a .marker := by
  revert v
  rcases ha with rfl | rfl <;> decide

theorem owns_of_endsRun {v : View} {a k : NodeKind} (hv : v ∈ withEvents)
    (ha : a = .submit ∨ a = .marker) (h : k.endsRun) : v.owns a k := by
  revert v
  rcases ha with rfl | rfl <;> cases k <;> first | contradiction | decide

theorem mem_withEvents_of_endsRun {v : View} {k : NodeKind} (h : k.endsRun) (hv : v.places k) :
    v ∈ withEvents := by
  revert v
  cases k <;> first | contradiction | decide

/-- Nodes other than registers and fields are owned by the root or by a node that has an owner. -/
theorem places_of_owns_top {v : View} {a b : NodeKind} (h : v.owns a b) (hreg : b ≠ .reg)
    (hfield : b ≠ .field) : a = .root ∨ v.places a ∧ a ≠ .reg ∧ a ≠ .field := by
  cases v <;> cases a <;> first
    | exact .inl rfl
    | exact .inr (by decide)
    | (cases b <;> contradiction)

end View

/-! ## New nodes -/

/-- New nodes hang from the given edges: the children are new nodes, each with the owner that it
needs and no other. -/
structure Attached (old : Nodes) (new : List Node) (owned : Links) : Prop where
  noRoot : ∀ node ∈ new, node.kind ≠ .root
  fits : ∀ {v n c}, (n, c) ∈ owned v → old.size ≤ c ∧ n < c ∧
    ∃ a b, Nodes.kind? (old ++ new) n = some a ∧ Nodes.kind? (old ++ new) c = some b ∧ v.owns a b
  nodup : ∀ v, ((owned v).map (·.2)).Nodup
  placed : ∀ {v i node}, new[i]? = some node → v.places node.kind →
    ∃ n, (n, old.size + i) ∈ owned v

namespace Attached

variable {old : Nodes} {new more : List Node} {owned owned' : Links}

theorem nil : Attached old [] .none where
  noRoot _ h := by simp at h
  fits h := by simp at h
  nodup _ := List.nodup_nil
  placed h := by simp at h

theorem append (h : Attached old new owned) (h' : Attached (old ++ new) more owned') :
    Attached old (new ++ more) (owned ++ owned') where
  noRoot node hn := (List.mem_append.mp hn).elim (h.noRoot node) (h'.noRoot node)
  fits {v n c} hc := by
    rcases List.mem_append.mp hc with hc | hc
    · obtain ⟨hle, hlt, a, b, ha, hb, hab⟩ := h.fits hc
      refine ⟨hle, hlt, a, b, ?_, ?_, hab⟩
      · rw [← Nodes.append_append_list]; exact Nodes.kind?_append ha
      · rw [← Nodes.append_append_list]; exact Nodes.kind?_append hb
    · obtain ⟨hle, hlt, a, b, ha, hb, hab⟩ := h'.fits hc
      rw [Nodes.append_append_list] at ha hb
      exact ⟨Nat.le_trans (by simp) hle, hlt, a, b, ha, hb, hab⟩
  nodup v := by
    rw [Links.append_apply, List.map_append]
    refine List.nodup_append.mpr ⟨h.nodup v, h'.nodup v, fun c hc c' hc' => ?_⟩
    obtain ⟨⟨n, _⟩, he, rfl⟩ := List.mem_map.mp hc
    obtain ⟨⟨n', _⟩, he', rfl⟩ := List.mem_map.mp hc'
    obtain ⟨-, -, _, _, -, hb, -⟩ := h.fits he
    exact Nat.ne_of_lt (Nat.lt_of_lt_of_le (Nodes.kind?_lt hb) (h'.fits he').1)
  placed {v i node} hi hk := by
    rcases Nat.lt_or_ge i new.length with hlt | hge
    · rw [List.getElem?_append_left hlt] at hi
      obtain ⟨n, hn⟩ := h.placed hi hk
      exact ⟨n, List.mem_append_left _ hn⟩
    · rw [List.getElem?_append_right hge] at hi
      obtain ⟨n, hn⟩ := h'.placed hi hk
      refine ⟨n, List.mem_append_right _ ?_⟩
      rwa [Nodes.size_append_list, Nat.add_assoc, Nat.add_sub_cancel' hge] at hn

/-- A single new node, with one owner in each view that needs it. -/
theorem single {node : Node} (hroot : node.kind ≠ .root)
    (h : ∀ v, owned v = [] ∧ ¬v.places node.kind ∨
      ∃ n a, owned v = [(n, old.size)] ∧ old.kind? n = some a ∧ v.owns a node.kind) :
    Attached old [node] owned where
  noRoot _ hn := List.mem_singleton.mp hn ▸ hroot
  fits {v n c} hc := by
    rcases h v with ⟨hv, -⟩ | ⟨m, a, hv, ha, hab⟩
    · simp [hv] at hc
    · rw [hv, List.mem_singleton] at hc
      cases hc
      exact ⟨Nat.le_refl _, Nodes.kind?_lt ha, a, node.kind, Nodes.kind?_append ha,
        Nodes.kind?_append_head, hab⟩
  nodup v := by
    rcases h v with ⟨hv, -⟩ | ⟨m, a, hv, -⟩ <;> simp [hv]
  placed {v i node'} hi hk := by
    obtain ⟨rfl, rfl⟩ : i = 0 ∧ node' = node := by
      cases i with
      | zero => simpa [eq_comm] using hi
      | succ i => simp at hi
    rcases h v with ⟨-, hn⟩ | ⟨m, a, hv, -⟩
    · exact absurd hk hn
    · exact ⟨m, by simp [hv]⟩

/-- A single new node, with the same owner in all views that need one. -/
theorem single_on {node : Node} {views : List View} {n : Nat} {a k : NodeKind}
    (hn : old.kind? n = some a) (hk : node.kind = k) (hroot : k ≠ .root)
    (hviews : ∀ v, v.places k → v ∈ views) (howns : ∀ v ∈ views, v.owns a k) :
    Attached old [node] (.on views [(n, old.size)]) := by
  subst hk
  refine single hroot fun v => ?_
  by_cases hv : v ∈ views
  · exact .inr ⟨n, a, if_pos hv, hn, howns v hv⟩
  · exact .inl ⟨if_neg hv, fun hk => hv (hviews v hk)⟩

theorem fields {parent : Nat} {k : NodeKind} (hk : old.kind? parent = some k)
    (hpk : k = .packet ∨ k = .reg) (ce : Bool) (lines : List String) :
    Attached old (lines.map (Pass.regFieldNode ce .field))
      (.on View.withPackets (Pass.fieldLog parent old.size lines.length)) := by
  induction lines generalizing old with
  | nil => simpa [Pass.fieldLog] using nil
  | cons line lines ih =>
    have hone : Attached old [Pass.regFieldNode ce .field line]
        (.on View.withPackets [(parent, old.size)]) :=
      single_on (k := .field) hk rfl (by decide) (by decide)
        (by rcases hpk with rfl | rfl <;> decide)
    have := hone.append (ih (Nodes.kind?_append hk))
    rwa [Links.on_append, Nodes.size_append_list] at this

theorem registers {packet : Nat} (hk : old.kind? packet = some .packet) (ce : Bool)
    (regs : List (String × List String)) :
    Attached old (regs.flatMap (Pass.registerNodes ce))
      (.on View.withPackets (Pass.registerLog packet old.size regs)) := by
  induction regs generalizing old with
  | nil => simpa [Pass.registerLog] using nil
  | cons reg regs ih =>
    have hreg : Attached old [Pass.regFieldNode ce .reg reg.1]
        (.on View.withPackets [(packet, old.size)]) :=
      single_on (k := .reg) hk rfl (by decide) (by decide) (by decide)
    have hfields : Attached (old ++ [Pass.regFieldNode ce .reg reg.1]) _ _ :=
      fields (Nodes.kind?_append_head) (.inr rfl) ce reg.2
    have hone := hreg.append hfields
    have := hone.append (ih (Nodes.kind?_append hk))
    simp only [Links.on_append, Nodes.size_append_list, List.length_append,
      List.length_singleton, List.length_map, ← Nat.add_assoc] at this
    exact this

/-- A packet with all that is below it; nobody owns the packet. -/
theorem packet (o : Options) (ce : Bool) (va : Nat) (kind : PacketKind) (header : UInt32)
    (words : Array UInt32) :
    Attached old (Pass.packetNode ce va kind header :: Pass.packetBelow o ce kind header words)
      (.on View.withPackets (Pass.packetLog o old.size kind header words)) := by
  have hpacket : Attached old [Pass.packetNode ce va kind header] .none :=
    single nofun fun v => .inl ⟨rfl, (by decide : ∀ v : View, ¬v.places .packet) v⟩
  have hk : Nodes.kind? (old ++ [Pass.packetNode ce va kind header]) old.size = some .packet :=
    Nodes.kind?_append_head
  unfold Pass.packetBelow Pass.packetLog
  cases kind.opcode? header with
  | some op =>
    have := hpacket.append (fields hk (.inl rfl) ce (o.layouts.fieldLines op words))
    rwa [Links.none_append, Nodes.size_append_list] at this
  | none =>
    have := hpacket.append (registers hk ce (Pass.packetRegs o header words))
    rwa [Links.none_append, Nodes.size_append_list] at this

end Attached

/-! ## Arrangements of all nodes -/

/-- Owners and children fit together, nothing is owned twice, and what a view lists has an owner.
Only packets are shared. -/
structure Arranged (nodes : Nodes) (owned shared : View → Nat → List Nat) : Prop where
  root : ∀ {n}, nodes.kind? n = some .root ↔ n = rootNode
  fits : ∀ {v n c}, c ∈ owned v n → ∃ a b, nodes.kind? n = some a ∧ nodes.kind? c = some b ∧
    v.owns a b ∧ (n < c ∨ b.endsRun)
  nodup : ∀ v n, (owned v n).Nodup
  once : ∀ {v a b c}, c ∈ owned v a → c ∈ owned v b → a = b
  placed : ∀ {v c k}, nodes.kind? c = some k → v.places k → ∃ n, c ∈ owned v n
  shares : ∀ {v n c}, c ∈ shared v n → nodes.kind? c = some .packet

namespace Arranged

variable {nodes : Nodes} {owned shared : View → Nat → List Nat} {v : View} {n c : Nat}

theorem child_lt (h : Arranged nodes owned shared) (hc : c ∈ owned v n) : c < nodes.size := by
  obtain ⟨_, _, -, hb, -⟩ := h.fits hc
  exact Nodes.kind?_lt hb

/-- From a node to another below it there is no way back. -/
theorem acyclic (h : Arranged nodes owned shared) (v : View) (n : Nat) :
    ¬Relation.TransGen (fun a b => b ∈ owned v a) n n := by
  -- An owner is no event, so it comes before its child.
  have key : ∀ {a b}, Relation.TransGen (fun a b => b ∈ owned v a) a b →
      a < b ∨ ∃ k, nodes.kind? b = some k ∧ k.endsRun := by
    intro a b hab
    induction hab with
    | single hab =>
      obtain ⟨_, k, -, hk, -, hlt | hk'⟩ := h.fits hab
      · exact .inl hlt
      · exact .inr ⟨k, hk, hk'⟩
    | @tail m b _ hmb ih =>
      obtain ⟨j, k, hj, hk, hjk, hlt⟩ := h.fits hmb
      rcases ih with ham | ⟨j', hj', hends⟩
      · exact hlt.imp (Nat.lt_trans ham) fun hends => ⟨k, hk, hends⟩
      · rw [hj] at hj'
        cases hj'
        exact absurd hjk (View.not_owns_of_endsRun hends)
  intro hn
  rcases key hn with hlt | ⟨k, hk, hends⟩
  · exact Nat.lt_irrefl n hlt
  · obtain ⟨b, hb, -⟩ := Relation.TransGen.head'_iff.mp hn
    obtain ⟨j, _, hj, -, hjb, -⟩ := h.fits hb
    rw [hk] at hj
    cases hj
    exact View.not_owns_of_endsRun hends hjb

/-- What a view lists can be reached from the root; registers and fields hang from packets. -/
theorem reachable (h : Arranged nodes owned shared) {k : NodeKind} (hk : nodes.kind? c = some k)
    (hplaces : v.places k) (hreg : k ≠ .reg) (hfield : k ≠ .field) :
    Relation.ReflTransGen (fun a b => b ∈ owned v a) rootNode c := by
  -- The induction passes by the events, which may come before their owners.
  have key : ∀ c k, nodes.kind? c = some k → v.places k → k ≠ .reg → k ≠ .field → ¬k.endsRun →
      Relation.ReflTransGen (fun a b => b ∈ owned v a) rootNode c := by
    intro c
    induction c using Nat.strongRecOn with
    | _ c ih =>
      intro k hk hplaces hreg hfield hends
      obtain ⟨n, hn⟩ := h.placed hk hplaces
      obtain ⟨a, b, ha, hb, hab, hlt⟩ := h.fits hn
      rw [hk] at hb
      cases hb
      refine .tail ?_ hn
      rcases View.places_of_owns_top hab hreg hfield with rfl | ⟨ha', hreg', hfield'⟩
      · rw [h.root.mp ha]
      · exact ih n (hlt.resolve_right hends) a ha ha' hreg' hfield'
          fun hends' => View.not_owns_of_endsRun hends' hab
  obtain ⟨n, hn⟩ := h.placed hk hplaces
  obtain ⟨a, b, ha, hb, hab, -⟩ := h.fits hn
  rw [hk] at hb
  cases hb
  refine .tail ?_ hn
  rcases View.places_of_owns_top hab hreg hfield with rfl | ⟨ha', hreg', hfield'⟩
  · rw [h.root.mp ha]
  · exact key n a ha ha' hreg' hfield' fun hends => View.not_owns_of_endsRun hends hab

end Arranged

namespace Pass

/-- The nodes and edges of a pass are arranged. -/
abbrev IsArranged (p : Pass) : Prop := Arranged p.nodes p.owned p.shared

variable {p q : Pass} {new : List Node} {owned shared : Links}

/-- Attached nodes are added to an arrangement. -/
theorem IsArranged.adds (h : p.IsArranged) (hq : p.Adds q new owned shared)
    (hnew : Attached p.nodes new owned)
    (hshared : ∀ {v n c}, (n, c) ∈ shared v → q.nodes.kind? c = some .packet) : q.IsArranged where
  root {n} := by
    refine ⟨fun hn => ?_, fun hn => hq.kind? (h.root.mpr hn)⟩
    rcases Nat.lt_or_ge n p.nodes.size with hlt | hge
    · refine h.root.mp ?_
      rwa [Nodes.kind?, ← hq.getElem? hlt]
    · obtain ⟨i, rfl⟩ := Nat.exists_eq_add_of_le hge
      rw [hq.kind?_new, Option.map_eq_some_iff] at hn
      obtain ⟨node, hi, hk⟩ := hn
      exact absurd hk (hnew.noRoot node (List.mem_of_getElem? hi))
  fits {v n c} hc := by
    rw [hq.owned, List.mem_append, EdgeLog.mem_children] at hc
    rcases hc with hc | hc
    · obtain ⟨a, b, ha, hb, hab, hlt⟩ := h.fits hc
      exact ⟨a, b, hq.kind? ha, hq.kind? hb, hab, hlt⟩
    · obtain ⟨-, hlt, a, b, ha, hb, hab⟩ := hnew.fits hc
      exact ⟨a, b, by rw [hq.nodes]; exact ha, by rw [hq.nodes]; exact hb, hab, .inl hlt⟩
  nodup v n := by
    rw [hq.owned]
    refine List.nodup_append.mpr ⟨h.nodup v n, ?_, fun c hc c' hc' => ?_⟩
    · exact (hnew.nodup v).sublist (List.filter_sublist.map _)
    · exact Nat.ne_of_lt (Nat.lt_of_lt_of_le (h.child_lt hc)
        (hnew.fits (EdgeLog.mem_children.mp hc')).1)
  once {v a b c} ha hb := by
    rw [hq.owned, List.mem_append, EdgeLog.mem_children] at ha hb
    rcases ha with ha | ha <;> rcases hb with hb | hb
    · exact h.once ha hb
    · exact absurd (h.child_lt ha) (Nat.not_lt.mpr (hnew.fits hb).1)
    · exact absurd (h.child_lt hb) (Nat.not_lt.mpr (hnew.fits ha).1)
    · exact congrArg Prod.fst (List.inj_on_of_nodup_map (hnew.nodup v) ha hb rfl)
  placed {v c k} hk hplaces := by
    rcases Nat.lt_or_ge c p.nodes.size with hlt | hge
    · rw [Nodes.kind?, hq.getElem? hlt] at hk
      obtain ⟨n, hn⟩ := h.placed hk hplaces
      exact ⟨n, by rw [hq.owned]; exact List.mem_append_left _ hn⟩
    · obtain ⟨i, rfl⟩ := Nat.exists_eq_add_of_le hge
      rw [hq.kind?_new, Option.map_eq_some_iff] at hk
      obtain ⟨node, hi, rfl⟩ := hk
      obtain ⟨n, hn⟩ := hnew.placed hi hplaces
      refine ⟨n, ?_⟩
      rw [hq.owned]
      exact List.mem_append_right _ (EdgeLog.mem_children.mpr hn)
  shares {v n c} hc := by
    rw [hq.shared, List.mem_append, EdgeLog.mem_children] at hc
    exact hc.elim (fun hc => hq.kind? (h.shares hc)) hshared

section

variable {moved : List Nat} {node : Node} {parent : Nat}

theorem Regroups.kind? {n : Nat} {k : NodeKind} (hq : p.Regroups q moved new owned shared)
    (hk : p.nodes.kind? n = some k) : q.nodes.kind? n = some k := by
  rw [hq.nodes]
  exact Nodes.kind?_append hk

theorem Regroups.kind?_head (hq : p.Regroups q moved [node] owned shared) :
    q.nodes.kind? p.nodes.size = some node.kind := by
  rw [hq.nodes]
  exact Nodes.kind?_append_head

theorem Regroups.kind?_cases {n : Nat} {k : NodeKind} (hq : p.Regroups q moved [node] owned shared)
    (hk : q.nodes.kind? n = some k) :
    p.nodes.kind? n = some k ∨ n = p.nodes.size ∧ node.kind = k := by
  have hlt := Nodes.kind?_lt hk
  rw [hq.nodes, Nodes.size_append_list, List.length_singleton] at hlt
  rcases Nat.lt_succ_iff_lt_or_eq.mp hlt with hlt | rfl
  · rw [Nodes.kind?, hq.nodes, Nodes.getElem?_append_old hlt] at hk
    exact .inl hk
  · rw [hq.kind?_head] at hk
    exact .inr ⟨rfl, Option.some.inj hk⟩

/-- An edge is an old one that does not lead to a moved node, or it is new. -/
theorem Regroups.mem_owned {v : View} {n c : Nat}
    (hq : p.Regroups q moved new (takeover parent p.nodes.size moved) shared) :
    c ∈ q.owned v n ↔
      (c ∈ p.owned v n ∧ (v ∈ View.withEvents → c ∉ moved)) ∨ v ∈ View.withEvents ∧
        (n = parent ∧ c = p.nodes.size ∨ n = p.nodes.size ∧ c ∈ moved) := by
  rw [hq.owned, List.mem_append, EdgeLog.mem_children, takeover, Links.mem_on]
  by_cases hv : v ∈ View.withEvents
  · simp only [hv, if_true, true_and, List.mem_filter, decide_eq_true_eq, forall_const,
      List.mem_cons, Prod.mk.injEq, List.mem_map]
    grind
  · simp [hv]

theorem Regroups.nodup_owned {v : View} {n : Nat} (h : p.IsArranged)
    (hq : p.Regroups q moved new (takeover parent p.nodes.size moved) shared) (hnd : moved.Nodup)
    (hlt : ∀ c ∈ moved, c < p.nodes.size) : (q.owned v n).Nodup := by
  have hfilter : (if v ∈ View.withEvents then (p.owned v n).filter (· ∉ moved)
      else p.owned v n).Nodup := by
    split
    · exact (h.nodup v n).filter _
    · exact h.nodup v n
  rw [hq.owned]
  refine List.nodup_append.mpr ⟨hfilter, ?_, fun c hc c' hc' => ?_⟩
  · rw [takeover, Links.on_apply]
    split
    · rw [EdgeLog.children]
      refine List.Nodup.sublist (List.filter_sublist.map _) ?_
      have hid : (Prod.snd ∘ fun c : Nat => (p.nodes.size, c)) = id := rfl
      rw [List.map_cons, List.map_map, hid, List.map_id]
      exact List.nodup_cons.mpr ⟨fun hm => Nat.lt_irrefl _ (hlt _ hm), hnd⟩
    · exact List.nodup_nil
  · obtain ⟨hv, hm⟩ := Links.mem_on.mp (EdgeLog.mem_children.mp hc')
    rw [if_pos hv, List.mem_filter, decide_eq_true_eq] at hc
    rintro rfl
    rcases List.mem_cons.mp hm with hm | hm
    · cases hm
      exact Nat.lt_irrefl _ (h.child_lt hc.1)
    · obtain ⟨c', hc', heq⟩ := List.mem_map.mp hm
      cases heq
      exact hc.2 hc'

/-- A new marker takes over events from other nodes. -/
theorem IsArranged.regroups {a : NodeKind} (h : p.IsArranged)
    (hq : p.Regroups q moved [node] (takeover parent p.nodes.size moved) shared)
    (hnode : node.kind = .marker) (hparent : p.nodes.kind? parent = some a)
    (ha : a = .submit ∨ a = .marker) (hnd : moved.Nodup)
    (hmoved : ∀ c ∈ moved, ∃ k, p.nodes.kind? c = some k ∧ k.endsRun)
    (hshared : ∀ {v n c}, (n, c) ∈ shared v → q.nodes.kind? c = some .packet) : q.IsArranged := by
  have hmarker : q.nodes.kind? p.nodes.size = some .marker := hnode ▸ hq.kind?_head
  have hlt (c : Nat) (hc : c ∈ moved) : c < p.nodes.size := by
    obtain ⟨_, hk, -⟩ := hmoved c hc
    exact Nodes.kind?_lt hk
  exact {
    root := fun {n} => by
      refine ⟨fun hn => ?_, fun hn => hq.kind? (h.root.mpr hn)⟩
      rcases hq.kind?_cases hn with hn | ⟨-, hn⟩
      · exact h.root.mp hn
      · rw [hnode] at hn
        cases hn
    fits := fun {v n c} hc => by
      rcases hq.mem_owned.mp hc with ⟨hc, -⟩ | ⟨hv, ⟨rfl, rfl⟩ | ⟨rfl, hm⟩⟩
      · obtain ⟨a, b, ha, hb, hab, hlt⟩ := h.fits hc
        exact ⟨a, b, hq.kind? ha, hq.kind? hb, hab, hlt⟩
      · exact ⟨a, .marker, hq.kind? hparent, hmarker, View.owns_marker hv ha,
          .inl (Nodes.kind?_lt hparent)⟩
      · obtain ⟨k, hk, hends⟩ := hmoved c hm
        exact ⟨.marker, k, hmarker, hq.kind? hk, View.owns_of_endsRun hv (.inr rfl) hends,
          .inr hends⟩
    nodup := fun v n => hq.nodup_owned h hnd hlt
    once := fun {v a b c} ha hb => by
      rcases hq.mem_owned.mp ha with ⟨ha', hm⟩ | ⟨hv, ⟨rfl, rfl⟩ | ⟨rfl, hm⟩⟩ <;>
        rcases hq.mem_owned.mp hb with ⟨hb', hm'⟩ | ⟨hv', ⟨rfl, hc⟩ | ⟨rfl, hm'⟩⟩
      · exact h.once ha' hb'
      · exact absurd (h.child_lt ha') (by omega)
      · exact absurd hm' (hm hv')
      · exact absurd (h.child_lt hb') (by omega)
      · rfl
      · exact absurd (hlt _ hm') (by omega)
      · exact absurd hm (hm' hv)
      · exact absurd (hlt _ hm) (by omega)
      · rfl
    placed := fun {v c k} hk hplaces => by
      rcases hq.kind?_cases hk with hk | ⟨rfl, rfl⟩
      · obtain ⟨n, hn⟩ := h.placed hk hplaces
        by_cases hc : v ∈ View.withEvents ∧ c ∈ moved
        · exact ⟨_, hq.mem_owned.mpr (.inr ⟨hc.1, .inr ⟨rfl, hc.2⟩⟩)⟩
        · exact ⟨n, hq.mem_owned.mpr (.inl ⟨hn, fun hv hm => hc ⟨hv, hm⟩⟩)⟩
      · rw [hnode] at hplaces
        refine ⟨parent, hq.mem_owned.mpr (.inr ⟨?_, .inl ⟨rfl, rfl⟩⟩)⟩
        revert v
        decide
    shares := fun {v n c} hc => by
      rw [hq.shared, List.mem_append, EdgeLog.mem_children] at hc
      exact hc.elim (fun hc => hq.kind? (h.shares hc)) hshared }

end

/-- The order of the children is of no account. -/
theorem IsArranged.perm (h : p.IsArranged) (hnodes : q.nodes = p.nodes)
    (howned : ∀ v n, (q.owned v n).Perm (p.owned v n))
    (hshared : ∀ v n, q.shared v n = p.shared v n) : q.IsArranged where
  root := by rw [hnodes]; exact h.root
  fits hc := by rw [hnodes]; exact h.fits ((howned _ _).mem_iff.mp hc)
  nodup v n := (howned v n).nodup_iff.mpr (h.nodup v n)
  once ha hb := h.once ((howned _ _).mem_iff.mp ha) ((howned _ _).mem_iff.mp hb)
  placed hk hplaces := by
    rw [hnodes] at hk
    obtain ⟨n, hn⟩ := h.placed hk hplaces
    exact ⟨n, (howned _ _).mem_iff.mpr hn⟩
  shares hc := by rw [hnodes]; exact h.shares (hshared _ _ ▸ hc)

/-- The edges of an arranged pass can become forests. -/
theorem IsArranged.wf (h : p.IsArranged) (hsized : p.Sized) (v : View) : (p.edges.get v).WF where
  owned_lt hc := by rw [hsized v]; exact h.child_lt (Array.mem_def.mp hc)
  shared_lt hc := by rw [hsized v]; exact Nodes.kind?_lt (h.shares (Array.mem_def.mp hc))
  nodup n := h.nodup v n
  once ha hb := h.once (Array.mem_def.mp ha) (Array.mem_def.mp hb)

end Pass

end CaptureForest
