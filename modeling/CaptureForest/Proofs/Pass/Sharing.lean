import CaptureForest.Proofs.Pass.Ascending
import CaptureForest.Proofs.Pass.Reach
import CaptureForest.Proofs.Pass.Runs

/-! # What markers share

A packet that marks no call is shared by all open markers, and a command buffer that begins shares
the packets since the buffer was entered or a call was recorded. So the packets of a marker come
behind it, but for those that a command buffer took, and before the next marker, unless the marker
is one that can own others (`Pass.Sharing`). -/

namespace CaptureForest

/-! ## Markers on the stack -/

namespace Pass

variable {n : Nat} {ms : List Nat}

theorem popThrough_sublist : (popThrough n ms).Sublist ms := by
  unfold popThrough
  split
  · exact .refl _
  · rename_i below heq
    exact (List.sublist_cons_self _ below).trans (heq ▸ List.dropWhile_sublist _)

/-- A marker that stands on a stack once is gone when it has been popped. -/
theorem not_mem_popThrough (h : ms.Nodup) : n ∉ popThrough n ms := by
  induction ms with
  | nil => exact List.not_mem_nil
  | cons m ms ih =>
    obtain ⟨hm, hms⟩ := List.nodup_cons.mp h
    by_cases hne : m = n
    · rw [hne, popThrough_cons_self]
      exact hne ▸ hm
    · by_cases hmem : n ∈ ms
      · rw [popThrough_cons_of_mem hne hmem]
        exact ih hms
      · have hnot : n ∉ m :: ms := by simp [Ne.symm hne, hmem]
        rwa [popThrough_of_not_mem hnot]

end Pass

namespace Levels

variable {nodes : Nodes} {depth : Nat} {l l' : Levels}

/-- No marker stands on the stack twice, and the call of the scope only if its level is open. -/
structure Distinct (l : Levels) : Prop where
  nodup : l.markers.Nodup
  closed : ∀ s, l.scope = some s → s.levelOpen = false → s.call ∉ l.markers

theorem Shift.distinct (h : Shift nodes depth l l') (hl : l.Distinct)
    (hmarkers : ∀ m ∈ l.markers, m < nodes.size)
    (hscope : ∀ s, l.scope = some s → s.call < nodes.size) : l'.Distinct := by
  cases h with
  | stays => exact hl
  | @opensLevel ms s hclosed _ =>
    refine ⟨List.nodup_cons.mpr ⟨hl.closed s rfl hclosed, hl.nodup⟩, fun s' hs' hclosed' => ?_⟩
    cases hs'
    cases hclosed'
  | @closesLevel ms s _ =>
    refine ⟨hl.nodup.sublist Pass.popThrough_sublist, fun s' hs' _ => ?_⟩
    cases hs'
    exact Pass.not_mem_popThrough hl.nodup
  | closesScope => exact ⟨hl.nodup.sublist Pass.popThrough_sublist, nofun⟩
  | endsScope => exact ⟨hl.nodup, nofun⟩
  | pushesLabel =>
    refine ⟨List.nodup_cons.mpr ⟨fun hmem => Nat.lt_irrefl _ (hmarkers _ hmem), hl.nodup⟩,
      fun s hs hclosed hmem => ?_⟩
    rcases List.mem_cons.mp hmem with heq | hmem
    · exact Nat.ne_of_lt (hscope s hs) heq
    · exact hl.closed s hs hclosed hmem
  | popsLabel =>
    exact ⟨(List.nodup_cons.mp hl.nodup).2, fun s hs hclosed hmem =>
      hl.closed s hs hclosed (List.mem_cons_of_mem _ hmem)⟩

end Levels

namespace Pass

variable {p q : Pass} {o : Options} {submit n : Nat}

/-- No marker stands on the stack twice. The open call is none of the levels. -/
structure Distinct (p : Pass) : Prop where
  levels : p.levels.Distinct
  openCall : ∀ c, p.openCall = some c → c ∉ p.levels.markers

theorem Distinct.markers (h : p.Distinct) (hp : p.Sound) : p.markers.Nodup := by
  cases hc : p.openCall with
  | none =>
    have hlevels := h.levels.nodup
    rwa [levels_eq hc] at hlevels
  | some c =>
    obtain ⟨ms, hms⟩ := List.head?_eq_some_iff.mp (hp.stacked.openCall c hc)
    have hlevels : p.levels.markers = ms := by simp [Pass.levels, callClosed, hc, hms]
    rw [hms, ← hlevels]
    exact List.nodup_cons.mpr ⟨h.openCall c hc, h.levels.nodup⟩

theorem Distinct.congr (h : p.Distinct) (hlevels : q.levels = p.levels)
    (hopen : q.openCall = p.openCall) : q.Distinct where
  levels := hlevels ▸ h.levels
  openCall c hc := by
    rw [hlevels]
    exact h.openCall c (hopen ▸ hc)

theorem Distinct.of_markers_eq_nil (hmarkers : p.markers = []) (hopen : p.openCall = none) :
    p.Distinct := by
  have hlevels : p.levels.markers = [] := by
    rw [levels_eq hopen]
    exact hmarkers
  exact {
    levels := ⟨hlevels ▸ .nil, fun _ _ _ => hlevels ▸ List.not_mem_nil⟩
    openCall := fun _ _ => hlevels ▸ List.not_mem_nil }

theorem Sound.levels_lt (h : p.Sound) : ∀ m ∈ p.levels.markers, m < p.nodes.size :=
  fun m hm => Nodes.kind?_lt (h.stacked.callClosed.markers m hm)

/-- Behind a recorded call, the open call is the new marker, if there is one. -/
theorem Obeys.openCall_cases {call : CallMarker} (h : Obeys o submit call p q) (hp : p.Sound) :
    q.openCall = none ∨
      q.openCall = some p.nodes.size ∧ ∀ m ∈ q.levels.markers, m < p.nodes.size := by
  have hlt : p.Stacked (· < p.nodes.size) := hp.stacked.congr (fun _ => Nodes.kind?_lt) rfl
  cases h with
  | beginsBuffer _ _ hctx =>
    refine .inr ⟨(congrArg Pass.openCall hctx :), ?_⟩
    have hlevels : q.levels = p.callClosed.scopeEntered.levels := (congrArg levels hctx :).trans
      (levels_opened (p := p.callClosed.scopeEntered.beginCleared) rfl)
    rw [hlevels]
    exact (hlt.callClosed.scopeEntered rfl).callClosed.markers
  | endsBuffer _ _ hctx =>
    split at hctx
    · exact .inl (congrArg Pass.openCall hctx :)
    · exact .inl (congrArg Pass.openCall hctx :)
  | beginsLabel _ _ hctx | insertsLabel _ _ hctx => exact .inl (congrArg Pass.openCall hctx :)
  | endsLabel => exact .inl rfl
  | opensCall _ _ hctx =>
    refine .inr ⟨(congrArg Pass.openCall hctx :), ?_⟩
    have hlevels : q.levels.markers = p.callClosed.markers :=
      (congrArg (·.levels.markers) hctx :)
    rw [hlevels]
    exact hlt.callClosed.markers

theorem Obeys.distinct {call : CallMarker} (h : Obeys o submit call p q) (hp : p.Sound)
    (hscoped : p.Scoped) (hdistinct : p.Distinct) : q.Distinct where
  levels := by
    by_cases hcall : call.command = .executeCommands
    · obtain ⟨-, -, hlevels⟩ := h.begins hcall
      rw [hlevels]
      refine ⟨hdistinct.levels.nodup, fun s hs _ hmem => ?_⟩
      cases hs
      exact Nat.lt_irrefl _ (hp.levels_lt _ hmem)
    · exact (h.shift hscoped hcall).distinct hdistinct.levels hp.levels_lt
        fun s hs => (hscoped s hs).call.lt
  openCall c hc hmem := by
    rcases h.openCall_cases hp with hnone | ⟨hnew, hlt⟩
    · cases hnone.symm.trans hc
    · cases hnew.symm.trans hc
      exact Nat.lt_irrefl _ (hlt _ hmem)

/-- Every change keeps the markers on the stack distinct. -/
theorem Change.distinct (hc : p.Change q) (hp : p.Sound) (hscoped : p.Scoped) (h : p.Distinct) :
    q.Distinct := by
  cases hc with
  | submitBegins _ _ _ hctx | endsState _ _ hctx | presents _ hctx =>
    exact h.congr (congrArg levels hctx :) (congrArg Pass.openCall hctx :)
  | enters _ hq =>
    obtain ⟨_, _, hctx⟩ := hq.context_eq
    exact h.congr (congrArg levels hctx :) (congrArg Pass.openCall hctx :)
  | leaves =>
    have hopen : p.popped.scopeLeft.openCall = none := by
      obtain ⟨_, _, _, hleft⟩ := p.popped.scopeLeft_eq
      rw [hleft]
      rfl
    have hnodes : p.popped.nodes = p.nodes := modifyIbs_nodes
    have hshift : Levels.Shift p.nodes 0 p.levels p.popped.scopeLeft.levels := by
      rw [← levels_popped, ← hnodes]
      exact shift_scopeLeft rfl
    have hlevels := hshift.distinct h.levels hp.levels_lt fun s hs => (hscoped s hs).call.lt
    exact ⟨hlevels, fun c hc => by cases hopen.symm.trans hc⟩
  | logs _ _ hq =>
    exact h.congr (congrArg levels hq.context :) (congrArg Pass.openCall hq.context :)
  | works _ hq =>
    cases hq with
    | sync _ _ _ hctx | event _ _ _ hctx =>
      exact h.congr (congrArg levels hctx :) (congrArg Pass.openCall hctx :)
    | nothing => exact h
  | shares _ hq =>
    exact h.congr (congrArg levels hq.context :) (congrArg Pass.openCall hq.context :)
  | obeys _ _ hq => exact hq.distinct hp hscoped h
  | marks | clears | sorts | submitEnds => exact h.congr rfl rfl
  | unmarks => exact .of_markers_eq_nil rfl rfl

/-! ## Packets of markers -/

end Pass

namespace Nodes

variable {nodes : Nodes} {new : List Node} {n : Nat}

theorem nests_append_old (h : n < nodes.size) : Nests (nodes ++ new) n ↔ nodes.Nests n := by
  rw [Nests, Nests, markerKind?, markerKind?, aux?_append_old h]

theorem begins_append_old (h : n < nodes.size) : Begins (nodes ++ new) n ↔ nodes.Begins n := by
  rw [Begins, Begins, aux?_append_old h]

end Nodes

namespace Pass

variable {p q : Pass} {o : Options} {m : Reader} {index submit n : Nat} {x : Step}

/-- The packets of markers are in order. Those of a marker come behind it, unless it begins a command
buffer, and before the next marker, unless it can own others. What a command buffer took from behind
an earlier marker, it took without a gap. -/
structure Sharing (p : Pass) : Prop where
  sorted : ∀ {v a}, p.nodes.kind? a = some .marker → (p.shared v a).Pairwise (· < ·)
  newest : ∀ {c b}, p.openCall = some c → p.nodes.kind? b = some .marker → b ≤ c
  behind : ∀ {b y}, p.nodes.kind? b = some .marker → ¬p.nodes.Begins b →
    y ∈ p.shared .allEvent b → b < y
  before : ∀ {a b x}, p.nodes.kind? a = some .marker → ¬p.nodes.Nests a →
    p.nodes.kind? b = some .marker → a < b → x ∈ p.shared .allEvent a → x < b
  latest : ∀ {a x y}, p.nodes.kind? a = some .marker → x ∈ p.shared .allEvent a →
    y ∈ p.beginPackets.toList → y ≤ x → y ∈ p.shared .allEvent a
  taken : ∀ {a b x y}, p.nodes.kind? a = some .marker → ¬p.nodes.Nests a →
    p.nodes.kind? b = some .marker → p.nodes.Begins b → a < b → x ∈ p.shared .allEvent a →
    y ∈ p.shared .allEvent b → y ≤ x → y ∈ p.shared .allEvent a

/-- The open markers share all packets that wait for a command buffer. -/
def Abreast (p : Pass) : Prop :=
  ∀ a ∈ p.markers, ∀ y ∈ p.beginPackets.toList, y ∈ p.shared .allEvent a

theorem Abreast.of_beginPackets_eq_empty (h : p.beginPackets = #[]) : p.Abreast := by
  intro a _ y hy
  rw [h] at hy
  cases hy

theorem Sound.shared_lt {v : View} {c : Nat} (h : p.Sound) (hc : c ∈ p.shared v n) :
    c < p.nodes.size :=
  Nodes.kind?_lt (h.arranged.shares hc)

/-- Of the open markers, only the open call owns no others. -/
theorem Nested.openCall_eq {a : Nat} (h : p.Nested) (hp : p.Sound) (ha : a ∈ p.markers)
    (hnests : ¬p.nodes.Nests a) : p.openCall = some a := by
  cases hc : p.openCall with
  | none =>
    have hsame : p.callClosed = p := callClosed_eq hc
    exact absurd (h.stacked.markers a (by rw [hsame]; exact ha)) hnests
  | some c =>
    obtain ⟨ms, hms⟩ := List.head?_eq_some_iff.mp (hp.stacked.openCall c hc)
    rw [hms] at ha
    rcases List.mem_cons.mp ha with rfl | ha
    · rfl
    · refine absurd (h.stacked.markers a ?_) hnests
      simpa [callClosed, hc, hms] using ha

/-- From `p` to `q` no marker comes and none shares more. -/
structure Spares (p q : Pass) : Prop where
  nodes : ∃ new : List Node, q.nodes = p.nodes ++ new
  kind : ∀ {n}, q.nodes.kind? n = some .marker → p.nodes.kind? n = some .marker
  shared : ∀ v n, p.nodes.kind? n = some .marker → q.shared v n = p.shared v n

theorem Spares.refl (p : Pass) : p.Spares p where
  nodes := ⟨[], Array.appendList_nil.symm⟩
  kind := id
  shared _ _ _ := rfl

theorem Spares.trans {r : Pass} (h : p.Spares q) (h' : q.Spares r) : p.Spares r := by
  obtain ⟨new, hnew⟩ := h.nodes
  obtain ⟨more, hmore⟩ := h'.nodes
  exact {
    nodes := ⟨new ++ more, by rw [hmore, hnew, Nodes.append_append_list]⟩
    kind := fun hn => h.kind (h'.kind hn)
    shared := fun v n hn =>
      (h'.shared v n (by rw [hnew]; exact Nodes.kind?_append hn)).trans (h.shared v n hn) }

theorem Adds.spares {new : List Node} {owned shared : Links} (hq : p.Adds q new owned shared)
    (hnew : ∀ node ∈ new, node.kind ≠ .marker)
    (hshared : ∀ {v n c}, (n, c) ∈ shared v → q.nodes.kind? n ≠ some .marker) : p.Spares q where
  nodes := ⟨new, hq.nodes⟩
  kind hn := Nodes.kind?_of_append hnew (hq.nodes ▸ hn)
  shared v n hn := by
    have hnil : (shared v).children n = [] :=
      List.eq_nil_iff_forall_not_mem.mpr fun c hc =>
        hshared (EdgeLog.mem_children.mp hc) (hq.kind? hn)
    rw [hq.shared, hnil, List.append_nil]

theorem Logs.spares {buffer va : Nat} {kind : PacketKind} {header : UInt32} {words : Array UInt32}
    (hq : Logs o submit buffer va kind header words p q) (hp : p.Sound)
    (hs : p.submit = some submit) (hb : p.nodes.kind? buffer = some .ib) : p.Spares q := by
  refine hq.adds.spares (fun node hnode => ?_) fun {v n c} hc hn => ?_
  · rcases List.mem_cons.mp hnode with rfl | hnode
    · exact fun heq => by cases heq
    · rcases packetBelow_kind hnode with hk | hk <;> simp [hk]
  · rcases List.mem_append.mp hc with hc | hc
    · cases List.mem_singleton.mp (Links.mem_on.mp hc).2
      cases (hq.adds.kind? (hp.submit submit hs)).symm.trans hn
    · cases List.mem_singleton.mp (Links.mem_on.mp hc).2
      cases (hq.adds.kind? hb).symm.trans hn

theorem Works.spares {op? : Option UInt8} {words : Array UInt32}
    (hq : Works o submit op? words p q) : p.Spares q := by
  have hends {node : Node} {owned : Links} (hq : p.Adds q [node] owned
        (.on View.withEvents (p.packets.toList.map (p.nodes.size, ·))))
      (hnode : node.kind ≠ .marker) : p.Spares q := by
    refine hq.spares (by simpa using hnode) fun {v n c} hc hn => ?_
    obtain ⟨c, -, heq⟩ := List.mem_map.mp (Links.mem_on.mp hc).2
    cases heq
    have hkind : q.nodes.kind? p.nodes.size = some node.kind := hq.kind?_new 0
    exact hnode (Option.some.inj (hkind.symm.trans hn))
  cases hq with
  | sync _ _ hq | event _ _ hq => exact hends hq fun heq => by cases heq
  | nothing => exact .refl p

namespace Sharing

theorem grow (h : p.Sharing) (hp : p.Sound) (hq : p.Spares q)
    (hopen : ∀ c, q.openCall = some c → p.openCall = some c)
    (hbegin : ∀ y ∈ q.beginPackets.toList, y ∈ p.beginPackets.toList ∨ p.nodes.size ≤ y) :
    q.Sharing := by
  obtain ⟨⟨new, hnodes⟩, hkind, hshared⟩ := hq
  exact {
    sorted := fun {v b} hb => by
      rw [hshared v b (hkind hb)]
      exact h.sorted (hkind hb)
    newest := fun hc hb => h.newest (hopen _ hc) (hkind hb)
    behind := fun {b y} hb hbegins hy => by
      replace hb := hkind hb
      rw [hnodes, Nodes.begins_append_old (Nodes.kind?_lt hb)] at hbegins
      exact h.behind hb hbegins (hshared _ _ hb ▸ hy)
    before := fun {a b x} ha hnests hb hlt hx => by
      replace ha := hkind ha
      rw [hnodes, Nodes.nests_append_old (Nodes.kind?_lt ha)] at hnests
      exact h.before ha hnests (hkind hb) hlt (hshared _ _ ha ▸ hx)
    latest := fun {a x y} ha hx hy hle => by
      replace ha := hkind ha
      rw [hshared _ _ ha] at hx ⊢
      rcases hbegin y hy with hy | hnew
      · exact h.latest ha hx hy hle
      · exact absurd (hp.shared_lt hx) (Nat.not_lt.mpr (Nat.le_trans hnew hle))
    taken := fun {a b x y} ha hnests hb hbegins hlt hx hy hle => by
      replace ha := hkind ha
      replace hb := hkind hb
      rw [hnodes, Nodes.nests_append_old (Nodes.kind?_lt ha)] at hnests
      rw [hnodes, Nodes.begins_append_old (Nodes.kind?_lt hb)] at hbegins
      rw [hshared _ _ ha] at hx ⊢
      exact h.taken ha hnests hb hbegins hlt hx (hshared _ _ hb ▸ hy) hle }

/-- A new marker shares nothing, or it begins a command buffer and shares the packets that wait. -/
theorem mark {node : Node} (h : p.Sharing) (hp : p.Sound) (ha : p.Ascending)
    (hnodes : q.nodes = p.nodes ++ [node])
    (hold : ∀ v n, n < p.nodes.size → q.shared v n = p.shared v n)
    (hnew : ∀ v, q.shared v p.nodes.size = [] ∨
      q.nodes.Begins p.nodes.size ∧ q.shared v p.nodes.size = p.beginPackets.toList)
    (hopen : ∀ c, q.openCall = some c → c = p.nodes.size)
    (hbegin : ∀ y ∈ q.beginPackets.toList, y ∈ p.beginPackets.toList) : q.Sharing := by
  have hlt {b : Nat} {k : NodeKind} (hb : q.nodes.kind? b = some k) : b ≤ p.nodes.size := by
    have hsize := Nodes.kind?_lt hb
    rw [hnodes, Nodes.size_append_list, List.length_singleton] at hsize
    exact Nat.le_of_lt_succ hsize
  have hcases {b : Nat} (hb : q.nodes.kind? b = some .marker) :
      b = p.nodes.size ∨ b < p.nodes.size ∧ p.nodes.kind? b = some .marker := by
    rcases Nat.lt_or_eq_of_le (hlt hb) with hb' | rfl
    · rw [hnodes, Nodes.kind?, Nodes.getElem?_append_old hb'] at hb
      exact .inr ⟨hb', hb⟩
    · exact .inl rfl
  exact {
    sorted := fun {v b} hb => by
      rcases hcases hb with rfl | ⟨hb', hb⟩
      · rcases hnew v with hnil | ⟨-, htaken⟩
        · rw [hnil]
          exact .nil
        · rw [htaken]
          exact ha.beginPackets
      · rw [hold v b hb']
        exact h.sorted hb
    newest := fun hc hb => hopen _ hc ▸ hlt hb
    behind := fun {b y} hb hbegins hy => by
      rcases hcases hb with rfl | ⟨hb', hb⟩
      · rcases hnew .allEvent with hnil | ⟨hbegins', -⟩
        · rw [hnil] at hy
          cases hy
        · exact absurd hbegins' hbegins
      · rw [hnodes, Nodes.begins_append_old hb'] at hbegins
        exact h.behind hb hbegins (hold _ _ hb' ▸ hy)
    before := fun {a b x} ha' hnests hb hab hx => by
      rcases hcases ha' with rfl | ⟨hlt', ha'⟩
      · exact absurd (hlt hb) (Nat.not_le.mpr hab)
      · rw [hold _ _ hlt'] at hx
        rcases hcases hb with rfl | ⟨-, hb⟩
        · exact hp.shared_lt hx
        · rw [hnodes, Nodes.nests_append_old hlt'] at hnests
          exact h.before ha' hnests hb hab hx
    latest := fun {a x y} ha' hx hy hle => by
      rcases hcases ha' with rfl | ⟨hlt', ha'⟩
      · rcases hnew .allEvent with hnil | ⟨-, htaken⟩
        · rw [hnil] at hx
          cases hx
        · rw [htaken]
          exact hbegin y hy
      · rw [hold _ _ hlt'] at hx ⊢
        exact h.latest ha' hx (hbegin y hy) hle
    taken := fun {a b x y} ha' hnests hb hbegins hab hx hy hle => by
      rcases hcases ha' with rfl | ⟨hlt', ha'⟩
      · exact absurd (hlt hb) (Nat.not_le.mpr hab)
      · rw [hold _ _ hlt'] at hx ⊢
        rcases hcases hb with rfl | ⟨hlt'', hb⟩
        · rcases hnew .allEvent with hnil | ⟨-, htaken⟩
          · rw [hnil] at hy
            cases hy
          · exact h.latest ha' hx (htaken ▸ hy) hle
        · rw [hnodes, Nodes.nests_append_old hlt'] at hnests
          rw [hnodes, Nodes.begins_append_old hlt''] at hbegins
          exact h.taken ha' hnests hb hbegins hab hx (hold _ _ hlt'' ▸ hy) hle }

/-! ## Recorded calls -/

theorem obeys {call : CallMarker} (h : p.Sharing) (hp : p.Sound) (ha : p.Ascending)
    (hq : Obeys o submit call p q) : q.Sharing := by
  -- Other calls add a marker that shares nothing.
  have hadds {node : Node} {owned : Links} (hq' : p.Adds q [node] owned .none)
      (hbegin : q.beginPackets = p.beginPackets) : q.Sharing := by
    have hshared (v : View) (n : Nat) : q.shared v n = p.shared v n :=
      (hq'.shared v n).trans (List.append_nil _)
    refine h.mark hp ha hq'.nodes (fun v n _ => hshared v n) (fun v => .inl ?_)
      (fun c hc => ?_) fun y hy => hbegin ▸ hy
    · rw [hshared, hp.sized.shared_size]
    · rcases hq.openCall_cases hp with hnone | ⟨hnew, -⟩
      · cases hnone.symm.trans hc
      · exact (Option.some.inj (hnew.symm.trans hc)).symm
  cases hq with
  | beginsBuffer hcall hq' hctx =>
    refine h.mark hp ha hq'.nodes (fun v n hn => ?_) (fun v => ?_) (fun c hc => ?_) fun y hy => ?_
    · have hnil : (Links.on View.withEvents
          (p.beginPackets.toList.map (p.nodes.size, ·)) v).children n = [] := by
        refine List.eq_nil_iff_forall_not_mem.mpr fun c hc => ?_
        obtain ⟨_, -, heq⟩ := List.mem_map.mp (Links.mem_on.mp (EdgeLog.mem_children.mp hc)).2
        exact Nat.ne_of_gt hn (congrArg Prod.fst heq)
      rw [hq'.shared, hnil, List.append_nil]
    · rw [hq'.shared, hp.sized.shared_size, List.nil_append, Links.on_apply]
      split
      · refine .inr ⟨?_, EdgeLog.children_fan⟩
        rw [Nodes.Begins, hq'.nodes, Nodes.aux?_append_head, callNode, hcall]
      · exact .inl rfl
    · exact Option.some.inj (hc.symm.trans (congrArg Pass.openCall hctx :))
    · have hnil : q.beginPackets = #[] := (congrArg Pass.beginPackets hctx :)
      rw [hnil] at hy
      cases hy
  | endsBuffer _ hq' hctx =>
    refine hadds hq' ?_
    split at hctx
    · exact (congrArg Pass.beginPackets hctx :)
    · exact (congrArg Pass.beginPackets hctx :)
  | beginsLabel _ hq' hctx | insertsLabel _ hq' hctx | opensCall _ hq' hctx =>
    exact hadds hq' (congrArg Pass.beginPackets hctx :)
  | endsLabel =>
    exact h.grow hp ⟨⟨[], Array.appendList_nil.symm⟩, id, fun _ _ _ => rfl⟩
      (fun _ hc => by cases hc) fun _ hy => .inl hy

/-! ## Other packets -/

theorem logs {buffer va : Nat} {kind : PacketKind} {header : UInt32} {words : Array UInt32}
    (h : p.Sharing) (hp : p.Sound) (hs : p.submit = some submit)
    (hb : p.nodes.kind? buffer = some .ib)
    (hq : Logs o submit buffer va kind header words p q) : q.Sharing := by
  have hopen : q.openCall = p.openCall := (congrArg Pass.openCall hq.context :)
  have hpush : q.beginPackets = p.beginPackets.push p.nodes.size :=
    (congrArg Pass.beginPackets hq.context :)
  refine h.grow hp (hq.spares hp hs hb) (fun c hc => hopen ▸ hc) fun y hy => ?_
  rw [hpush, Array.toList_push, List.mem_append, List.mem_singleton] at hy
  exact hy.imp_right fun heq => Nat.le_of_eq heq.symm

theorem works {op? : Option UInt8} {words : Array UInt32} (h : p.Sharing) (hp : p.Sound)
    (hq : Works o submit op? words p q) : q.Sharing := by
  have hsame : q.openCall = p.openCall ∧ q.beginPackets = p.beginPackets := by
    cases hq with
    | sync _ _ _ hctx | event _ _ _ hctx =>
      exact ⟨(congrArg Pass.openCall hctx :), (congrArg Pass.beginPackets hctx :)⟩
    | nothing => exact ⟨rfl, rfl⟩
  exact h.grow hp hq.spares (fun c hc => hsame.1 ▸ hc) fun y hy => .inl (hsame.2 ▸ hy)

/-- A packet that is newer than what markers share, and newer than they are, is shared by all open
ones. -/
theorem shares {packet : Nat} (h : p.Sharing) (hp : p.Sound) (hnested : p.Nested)
    (hdistinct : p.Distinct) (hq : p.Shares packet q)
    (hmarkers : ∀ a ∈ p.markers, a < packet)
    (hless : ∀ {v a x}, p.nodes.kind? a = some .marker → x ∈ p.shared v a → x < packet)
    (habreast : ∀ a ∈ p.markers, ∀ y ∈ p.beginPackets.toList,
      y = packet ∨ y ∈ p.shared .allEvent a) : q.Sharing ∧ q.Abreast := by
  have hnodes : q.nodes = p.nodes := hq.adds.nodes.trans Array.appendList_nil
  have hbegin : q.beginPackets = p.beginPackets := (congrArg Pass.beginPackets hq.context :)
  have hopen : q.openCall = p.openCall := (congrArg Pass.openCall hq.context :)
  have hstack : q.markers = p.markers := (congrArg Pass.markers hq.context :)
  have hmem {a y : Nat} : y ∈ q.shared .allEvent a ↔
      y ∈ p.shared .allEvent a ∨ a ∈ p.markers ∧ y = packet := by
    rw [hq.adds.shared, List.mem_append, EdgeLog.mem_children, Links.mem_on]
    simp [View.withEvents, eq_comm]
  have hwaits {a y : Nat} (ha : a ∈ p.markers) (hy : y ∈ q.beginPackets.toList) :
      y ∈ q.shared .allEvent a := by
    rw [hbegin] at hy
    exact hmem.mpr ((habreast a ha y hy).symm.imp_right fun heq => ⟨ha, heq⟩)
  -- Behind the open call there is no marker.
  have hlast {a b : Nat} (ha : a ∈ p.markers) (hnests : ¬p.nodes.Nests a)
      (hb : p.nodes.kind? b = some .marker) : b ≤ a :=
    h.newest (hnested.openCall_eq hp ha hnests) hb
  refine ⟨?_, fun a ha y hy => hwaits (hstack ▸ ha) hy⟩
  exact {
    sorted := fun {v a} ha => by
      rw [hnodes] at ha
      rw [hq.adds.shared]
      refine List.pairwise_append.mpr ⟨h.sorted ha, ?_, fun x hx y hy => ?_⟩
      · rw [Links.on_apply]
        split
        · rw [EdgeLog.children_map_left (hdistinct.markers hp)]
          split
          · exact List.pairwise_singleton ..
          · exact .nil
        · exact .nil
      · obtain ⟨_, -, heq⟩ := List.mem_map.mp (Links.mem_on.mp (EdgeLog.mem_children.mp hy)).2
        cases heq
        exact hless ha hx
    newest := fun hc hb => h.newest (hopen ▸ hc) (hnodes ▸ hb)
    behind := fun {b y} hb hbegins hy => by
      rw [hnodes] at hb hbegins
      rcases hmem.mp hy with hy | ⟨hb', rfl⟩
      · exact h.behind hb hbegins hy
      · exact hmarkers b hb'
    before := fun {a b x} ha hnests hb hab hx => by
      rw [hnodes] at ha hnests hb
      rcases hmem.mp hx with hx | ⟨ha', rfl⟩
      · exact h.before ha hnests hb hab hx
      · exact absurd (hlast ha' hnests hb) (Nat.not_le.mpr hab)
    latest := fun {a x y} ha hx hy hle => by
      rw [hnodes] at ha
      rcases hmem.mp hx with hx | ⟨ha', rfl⟩
      · exact hmem.mpr (.inl (h.latest ha hx (hbegin ▸ hy) hle))
      · exact hwaits ha' hy
    taken := fun {a b x y} ha hnests hb hbegins hab hx hy hle => by
      rw [hnodes] at ha hnests hb hbegins
      rcases hmem.mp hx with hx | ⟨ha', rfl⟩
      · rcases hmem.mp hy with hy | ⟨-, rfl⟩
        · exact hmem.mpr (.inl (h.taken ha hnests hb hbegins hab hx hy hle))
        · exact absurd (hless ha hx) (Nat.not_lt.mpr hle)
      · exact absurd (hlast ha' hnests hb) (Nat.not_le.mpr hab) }

end Sharing

end Pass

end CaptureForest
