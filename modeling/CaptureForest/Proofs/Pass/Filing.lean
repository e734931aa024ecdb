import CaptureForest.Proofs.Pass.Follow
import CaptureForest.Capture.Basic

/-! # Where packets are filed

An `Execution` is a packet that the walk of a submit executes, with the buffer that it stands in.
Each packet node is `Filed` under a single buffer, the one that its execution stands in, and a
submit `Lists` the packets of its walk in their order. -/

namespace CaptureForest

/-- A packet in a buffer that the walk of a submit visits. -/
structure Execution where
  /-- The place of the submit. -/
  index : Nat
  visit : Walk.Visit
  va : Nat
  kind : PacketKind
  header : UInt32

/-- The step that reports a packet. -/
def Execution.step (x : Execution) : Step := .packet x.visit.ibIndex x.va x.kind x.header

/-- The walk of a submit executes a packet: it reports it where the buffer is the innermost one. -/
def Capture.Executes (c : Capture) (x : Execution) : Prop :=
  ∃ s t rest pos r rs, c.submits[x.index]? = some s ∧ s.isWalked ∧
    Walk.steps c.memory x.index s.ibs = t ++ x.step :: rest ∧
    Walk.Path c.memory x.index s.ibs {} t pos ∧ pos.runs = r :: rs ∧ r.latest = x.visit

variable {c : Capture} {nodes : Nodes} {new : List Node} {shared shared' : View → Nat → List Nat}
  {k n : Nat} {x : Execution}

/-- The packet node `k` stands for an execution, and the buffer node `n` for the buffer of that
execution. No other buffer shares the packet. -/
structure Filed (c : Capture) (nodes : Nodes) (shared : View → Nat → List Nat) (k : Nat)
    (x : Execution) (n : Nat) : Prop where
  executes : c.Executes x
  inside : x.visit.ib.va ≤ x.va ∧ x.va < x.visit.ib.stop
  packet : ∃ word,
    nodes[k]? = some (Pass.packetNode x.visit.ib.constantEngine x.va x.kind word)
  buffer : ∃ submit s, c.submits[x.index]? = some s ∧
    nodes[submit]? = some (Pass.submitNode x.index s) ∧ nodes.Represents submit n x.visit
  shared : ∀ v ∈ View.withBuffers, ∀ b, nodes.kind? b = some .ib → (k ∈ shared v b ↔ b = n)

/-- The submit node `n` shares the packets of the steps `t` in their order, in all views that list
packets. -/
structure Lists (c : Capture) (nodes : Nodes) (shared : View → Nat → List Nat) (s : Submit)
    (index : Nat) (t : List Step) (n : Nat) : Prop where
  node : nodes[n]? = some (Pass.submitNode index s)
  packets : ∃ ks xs, (∀ v ∈ View.withPackets, shared v n = ks) ∧
    List.Forall₂ (fun k x => x.index = index ∧ ∃ b, Filed c nodes shared k x b) ks xs ∧
    xs.map Execution.step = t.filter Step.isPacket

namespace Filed

theorem lt (h : Filed c nodes shared k x n) : k < nodes.size := by
  obtain ⟨_, hk⟩ := h.packet
  exact (Array.getElem?_eq_some_iff.mp hk).1

/-- A packet stays where it is filed. -/
theorem append (h : Filed c nodes shared k x n)
    (hsame : ∀ v ∈ View.withBuffers, ∀ b, k ∈ shared' v b ↔ k ∈ shared v b)
    (hlt : ∀ {v b}, k ∈ shared v b → b < nodes.size) :
    Filed c (nodes ++ new) shared' k x n where
  executes := h.executes
  inside := h.inside
  packet := by
    obtain ⟨word, hk⟩ := h.packet
    exact ⟨word, by rw [Nodes.getElem?_append_old h.lt]; exact hk⟩
  buffer := by
    obtain ⟨submit, s, hs, hsubmit, hn⟩ := h.buffer
    refine ⟨submit, s, hs, ?_, hn.append⟩
    rw [Nodes.getElem?_append_old (Array.getElem?_eq_some_iff.mp hsubmit).1]
    exact hsubmit
  shared v hv b hb := by
    obtain ⟨_, _, -, -, hn⟩ := h.buffer
    rw [hsame v hv]
    rcases Nat.lt_or_ge b nodes.size with hlt' | hge
    · rw [Nodes.kind?, Nodes.getElem?_append_old hlt'] at hb
      exact h.shared v hv b hb
    · refine ⟨fun hk => absurd (hlt hk) (Nat.not_lt.mpr hge), ?_⟩
      rintro rfl
      exact absurd (Nodes.kind?_lt hn.kind?) (Nat.not_lt.mpr hge)

theorem congr (h : Filed c nodes shared k x n)
    (hsame : ∀ v ∈ View.withBuffers, shared' v = shared v) : Filed c nodes shared' k x n :=
  { h with shared := fun v hv b hb => by rw [hsame v hv]; exact h.shared v hv b hb }

end Filed

variable {s : Submit} {index : Nat} {t : List Step}

theorem Lists.congr (h : Lists c nodes shared s index t n)
    (hsame : ∀ v ∈ View.withPackets, shared' v = shared v) :
    Lists c nodes shared' s index t n where
  node := h.node
  packets := by
    obtain ⟨ks, xs, hks, hfiled, hxs⟩ := h.packets
    refine ⟨ks, xs, fun v hv => by rw [hsame v hv]; exact hks v hv, ?_, hxs⟩
    refine hfiled.imp fun k x hx => ⟨hx.1, ?_⟩
    obtain ⟨b, hb⟩ := hx.2
    exact ⟨b, hb.congr fun v hv => hsame v (by revert v; decide)⟩

theorem Lists.kind? (h : Lists c nodes shared s index t n) : nodes.kind? n = some .submit := by
  rw [Nodes.kind?, h.node]
  rfl

theorem Lists.append (h : Lists c nodes shared s index t n)
    (hshared : ∀ v ∈ View.withPackets, shared' v n = shared v n)
    (hsame : ∀ k < nodes.size, ∀ v ∈ View.withBuffers, ∀ b, k ∈ shared' v b ↔ k ∈ shared v b)
    (hlt : ∀ {v b k}, k ∈ shared v b → b < nodes.size) :
    Lists c (nodes ++ new) shared' s index t n where
  node := by
    rw [Nodes.getElem?_append_old (Nodes.kind?_lt h.kind?)]
    exact h.node
  packets := by
    obtain ⟨ks, xs, hks, hfiled, hxs⟩ := h.packets
    refine ⟨ks, xs, fun v hv => (hshared v hv).trans (hks v hv), ?_, hxs⟩
    refine hfiled.imp fun k x hx => ⟨hx.1, ?_⟩
    obtain ⟨b, hb⟩ := hx.2
    exact ⟨b, hb.append (hsame k hb.lt) hlt⟩

/-- A step that executes no packet is not listed. -/
theorem Lists.skip {step : Step} (h : Lists c nodes shared s index t n)
    (hstep : step.isPacket = false) : Lists c nodes shared s index (t ++ [step]) n where
  node := h.node
  packets := by
    obtain ⟨ks, xs, hks, hfiled, hxs⟩ := h.packets
    exact ⟨ks, xs, hks, hfiled, by simp [List.filter_append, hstep, hxs]⟩

namespace Pass

variable {p q : Pass} {submit buffer : Nat}

theorem shared_lt (h : p.Sized) {v : View} (hk : k ∈ p.shared v n) : n < p.nodes.size := by
  rw [← h v]
  exact EdgeLists.lt_of_mem_shared (Array.mem_def.mpr hk)

namespace Files

variable {packet : Node}

/-- Where the other packets are filed does not change. -/
theorem mem_shared_old (h : p.Files q submit buffer packet) (hk : k < p.nodes.size) {v : View}
    (hv : v ∈ View.withBuffers) (b : Nat) : k ∈ q.shared v b ↔ k ∈ p.shared v b := by
  simp [h.shared v hv, EdgeLog.mem_children, Nat.ne_of_lt hk]

/-- The packet is filed under the submit and the buffer. -/
theorem mem_shared_new (h : p.Files q submit buffer packet) (hp : p.Sound) {v : View}
    (hv : v ∈ View.withBuffers) (b : Nat) :
    p.nodes.size ∈ q.shared v b ↔ b = submit ∨ b = buffer := by
  have hold : p.nodes.size ∉ p.shared v b := fun hk =>
    Nat.lt_irrefl _ (Nodes.kind?_lt (hp.arranged.shares hk))
  simp [h.shared v hv, EdgeLog.mem_children, hold]

/-- The submit shares one more packet. -/
theorem shared_submit (h : p.Files q submit buffer packet)
    (hsubmit : p.nodes.kind? submit = some .submit) (hbuffer : buffer ≠ submit) {v : View}
    (hv : v ∈ View.withPackets) : q.shared v submit = p.shared v submit ++ [p.nodes.size] := by
  have hor : v ∈ View.withBuffers ∨ v ∈ View.withEvents := by revert v; decide
  rcases hor with hv | hv
  · rw [h.shared v hv]
    simp [EdgeLog.children_cons, hbuffer]
  · rw [h.submits v hv submit hsubmit]
    simp [EdgeLog.children_cons]

/-- The other submits share no other packets than before. -/
theorem shared_other (h : p.Files q submit buffer packet) (hn : p.nodes.kind? n = some .submit)
    (hne : n ≠ submit) (hbuffer : n ≠ buffer) {v : View} (hv : v ∈ View.withPackets) :
    q.shared v n = p.shared v n := by
  have hor : v ∈ View.withBuffers ∨ v ∈ View.withEvents := by revert v; decide
  rcases hor with hv | hv
  · rw [h.shared v hv]
    simp [EdgeLog.children_cons, hne.symm, hbuffer.symm]
  · rw [h.submits v hv n hn]
    simp [EdgeLog.children_cons, hne.symm]

/-- No submit begins and no buffer is entered. -/
theorem ofKind_eq (h : p.Files q submit buffer packet) (hpacket : packet.kind = .packet)
    {k : NodeKind} (hk : k ∉ [NodeKind.packet, .reg, .field, .event, .sync, .marker]) :
    q.nodes.ofKind k = p.nodes.ofKind k := by
  obtain ⟨new, hnodes, hkinds⟩ := h.nodes
  rw [hnodes]
  refine Nodes.ofKind_append_of_ne fun node hnode heq => hk ?_
  rcases List.mem_cons.mp hnode with rfl | hnode
  · simp [← heq, hpacket]
  · exact heq ▸ List.mem_cons_of_mem _ (hkinds node hnode)

/-- The packet is filed under its execution. -/
theorem filed {word : UInt32} (hp : p.Sound) (hx : c.Executes x)
    (hinside : x.visit.ib.va ≤ x.va ∧ x.va < x.visit.ib.stop)
    (hs : c.submits[x.index]? = some s) (hsubmit : p.nodes[submit]? = some (submitNode x.index s))
    (hbuffer : p.nodes.Represents submit buffer x.visit)
    (h : p.Files q submit buffer (packetNode x.visit.ib.constantEngine x.va x.kind word)) :
    Filed c q.nodes q.shared p.nodes.size x buffer := by
  obtain ⟨new, hnodes, -⟩ := h.nodes
  have hlt := (Array.getElem?_eq_some_iff.mp hsubmit).1
  exact {
    executes := hx
    inside := hinside
    packet := ⟨word, by rw [hnodes]; exact Nodes.getElem?_append_head⟩
    buffer := by
      refine ⟨submit, s, hs, ?_, by rw [hnodes]; exact hbuffer.append⟩
      rw [hnodes, Nodes.getElem?_append_old hlt]
      exact hsubmit
    shared := fun v hv b hb => by
      have hb' : b ≠ submit := by
        rintro rfl
        rw [Nodes.kind?, hnodes, Nodes.getElem?_append_old hlt, hsubmit] at hb
        cases hb
      rw [h.mem_shared_new hp hv]
      exact ⟨fun hor => hor.resolve_left hb', .inr⟩ }

theorem kind? (h : p.Files q submit buffer packet) {k : NodeKind}
    (hn : p.nodes.kind? n = some k) : q.nodes.kind? n = some k := by
  obtain ⟨new, hnodes, -⟩ := h.nodes
  rw [hnodes]
  exact Nodes.kind?_append hn

/-- The one packet that is new is the one that is filed. -/
theorem packet_cases (h : p.Files q submit buffer packet)
    (hk : q.nodes.kind? k = some .packet) :
    p.nodes.kind? k = some .packet ∨ k = p.nodes.size := by
  obtain ⟨new, hnodes, hkinds⟩ := h.nodes
  rcases Nat.lt_or_ge k p.nodes.size with hlt | hge
  · rw [Nodes.kind?, hnodes, Nodes.getElem?_append_old hlt] at hk
    exact .inl hk
  · obtain ⟨i, rfl⟩ := Nat.exists_eq_add_of_le hge
    rw [hnodes, Nodes.kind?_append_new] at hk
    cases i with
    | zero => exact .inr rfl
    | succ i =>
      obtain ⟨node, hi, hnode⟩ := Option.map_eq_some_iff.mp hk
      have := hkinds node (List.mem_of_getElem? (by simpa using hi))
      simp [hnode] at this

/-- The submit lists the execution behind those before. -/
theorem lists_submit {word : UInt32} (h : Lists c p.nodes p.shared s x.index t submit)
    (hp : p.Sound) (hx : c.Executes x) (hs : c.submits[x.index]? = some s) (hk : x.kind ≠ .unknown)
    (hinside : x.visit.ib.va ≤ x.va ∧ x.va < x.visit.ib.stop) (hne : buffer ≠ submit)
    (hbuffer : p.nodes.Represents submit buffer x.visit)
    (hq : p.Files q submit buffer (packetNode x.visit.ib.constantEngine x.va x.kind word)) :
    Lists c q.nodes q.shared s x.index (t ++ [x.step]) submit := by
  obtain ⟨new, hnodes, -⟩ := hq.nodes
  obtain ⟨ks, xs, hks, hfiled, hxs⟩ := h.packets
  refine {
    node := by
      rw [hnodes, Nodes.getElem?_append_old (Nodes.kind?_lt h.kind?)]
      exact h.node
    packets := ⟨ks ++ [p.nodes.size], xs ++ [x], fun v hv => ?_, ?_, ?_⟩ }
  · rw [hq.shared_submit h.kind? hne hv, hks v hv]
  · refine List.rel_append (hfiled.imp fun k x hkx => ⟨hkx.1, ?_⟩)
      (.cons ⟨rfl, buffer, hq.filed hp hx hinside hs h.node hbuffer⟩ .nil)
    obtain ⟨b, hb⟩ := hkx.2
    refine ⟨b, ?_⟩
    rw [hnodes]
    exact hb.append (fun v hv b => hq.mem_shared_old hb.lt hv b) (shared_lt hp.sized)
  · simp [hxs, Execution.step, Step.isPacket, hk]

/-- The other submits list what they did. -/
theorem lists_other (h : Lists c p.nodes p.shared s index t n) (hp : p.Sized) (hn : n ≠ submit)
    (hne : n ≠ buffer) (hq : p.Files q submit buffer packet) :
    Lists c q.nodes q.shared s index t n := by
  obtain ⟨new, hnodes, -⟩ := hq.nodes
  rw [hnodes]
  exact h.append (fun v hv => hq.shared_other h.kind? hn hne hv)
    (fun k hk v hv b => hq.mem_shared_old hk hv b) (shared_lt hp)

end Files

/-- The packets of the submits that have begun, each with the submit, its place and the steps of its
walk so far. -/
structure Filing (c : Capture) (p : Pass) (begun : List (Submit × Nat × List Step)) : Prop where
  submits : List.Forall₂ (fun n (s, index, t) => Lists c p.nodes p.shared s index t n)
    (p.nodes.ofKind .submit) begun
  packets : ∀ k, p.nodes.kind? k = some .packet →
    ∃ n, p.nodes.kind? n = some .submit ∧ ∀ v ∈ View.withPackets, k ∈ p.shared v n

theorem Keeps.ofKind_submit (h : p.Keeps q) : q.nodes.ofKind .submit = p.nodes.ofKind .submit := by
  obtain ⟨new, hnodes, hnew⟩ := h.nodes
  rw [hnodes, Nodes.ofKind_append_of_ne fun node hn => (hnew node hn).1]

namespace Filing

variable {begun : List (Submit × Nat × List Step)}

theorem keeps (h : p.Filing c begun) (hp : p.Sized) (hq : p.Keeps q) : q.Filing c begun := by
  obtain ⟨new, hnodes, hnew⟩ := hq.nodes
  refine ⟨?_, fun k hk => ?_⟩
  · rw [hnodes, Nodes.ofKind_append_of_ne fun node hn => (hnew node hn).1]
    refine h.submits.imp fun n e he => ?_
    refine he.append (fun v _ => hq.submits v n he.kind?) (fun k _ v hv b => ?_) (shared_lt hp)
    rw [hq.shared v hv]
  · have hold : p.nodes.kind? k = some .packet := by
      rwa [← Nodes.mem_ofKind, hnodes, Nodes.ofKind_append_of_ne fun node hn => (hnew node hn).2.1,
        Nodes.mem_ofKind] at hk
    obtain ⟨n, hn, hk⟩ := h.packets k hold
    refine ⟨n, ?_, fun v hv => ?_⟩
    · rw [hnodes]; exact Nodes.kind?_append hn
    · rw [hq.submits v n hn]; exact hk v hv

/-- A submit begins without packets. -/
theorem begins (h : p.Filing c begun) (hp : p.Sized) {owned : Links}
    (hq : p.Adds q [submitNode index s] owned .none) : q.Filing c (begun ++ [(s, index, [])]) := by
  have hsame (v : View) (n : Nat) : q.shared v n = p.shared v n := by
    rw [hq.shared]; exact List.append_nil _
  refine ⟨?_, fun k hk => ?_⟩
  · rw [hq.nodes, Nodes.ofKind_append_single (k := .submit) rfl]
    refine List.rel_append ?_ (.cons ?_ .nil)
    · refine h.submits.imp fun n e he => ?_
      exact he.append (fun v _ => hsame v n) (fun k _ v _ b => by rw [hsame]) (shared_lt hp)
    · refine ⟨Nodes.getElem?_append_head, [], [], fun v hv => ?_, .nil, rfl⟩
      rw [hsame]
      refine List.eq_nil_iff_forall_not_mem.mpr fun k hk => ?_
      exact Nat.lt_irrefl _ (shared_lt hp hk)
  · have hold : p.nodes.kind? k = some .packet := by
      rwa [← Nodes.mem_ofKind, hq.nodes, Nodes.ofKind_append_of_ne (by simp [submitNode]),
        Nodes.mem_ofKind] at hk
    obtain ⟨n, hn, hk⟩ := h.packets k hold
    exact ⟨n, hq.kind? hn, fun v hv => by rw [hsame]; exact hk v hv⟩

/-- The submit that has begun last is the last submit node. -/
theorem last {earlier : List Nat} (h : p.Filing c (begun ++ [(s, index, t)]))
    (hlast : p.nodes.ofKind .submit = earlier ++ [submit]) :
    List.Forall₂ (fun n (s, index, t) => Lists c p.nodes p.shared s index t n) earlier begun ∧
      Lists c p.nodes p.shared s index t submit := by
  have hall := h.submits
  rw [hlast, ← List.forall₂_reverse_iff, List.reverse_append, List.reverse_append] at hall
  cases hall with
  | cons hlists hrest => exact ⟨List.forall₂_reverse_iff.mp hrest, hlists⟩

/-- A step of the last submit executes no packet. -/
theorem skip {earlier : List Nat} {step : Step} (h : p.Filing c (begun ++ [(s, index, t)]))
    (hlast : p.nodes.ofKind .submit = earlier ++ [submit]) (hstep : step.isPacket = false) :
    p.Filing c (begun ++ [(s, index, t ++ [step])]) where
  submits := by
    obtain ⟨hearlier, hlists⟩ := h.last hlast
    rw [hlast]
    exact List.rel_append hearlier (.cons (hlists.skip hstep) .nil)
  packets := h.packets

/-- A packet of the last submit is executed. -/
theorem files {earlier : List Nat} {word : UInt32}
    (h : p.Filing c (begun ++ [(s, x.index, t)])) (hp : p.Sound)
    (hlast : p.nodes.ofKind .submit = earlier ++ [submit]) (hx : c.Executes x)
    (hs : c.submits[x.index]? = some s) (hk : x.kind ≠ .unknown)
    (hinside : x.visit.ib.va ≤ x.va ∧ x.va < x.visit.ib.stop)
    (hbuffer : p.nodes.Represents submit buffer x.visit)
    (hq : p.Files q submit buffer (packetNode x.visit.ib.constantEngine x.va x.kind word)) :
    q.Filing c (begun ++ [(s, x.index, t ++ [x.step])]) := by
  obtain ⟨hearlier, hlists⟩ := h.last hlast
  have hne {n : Nat} (hn : p.nodes.kind? n = some .submit) : n ≠ buffer := by
    rintro rfl
    rw [hbuffer.kind?] at hn
    cases hn
  have hnew := hne hlists.kind?
  refine ⟨?_, fun k hk => ?_⟩
  · rw [hq.ofKind_eq rfl (by decide), hlast]
    have hnd : (earlier ++ [submit]).Nodup := by
      rw [← hlast]
      exact List.nodup_range.filter _
    have hmem : ∀ n ∈ earlier, n ≠ submit := fun n hn =>
      (List.nodup_append.mp hnd).2.2 n hn submit (List.mem_singleton.mpr rfl)
    refine List.rel_append ?_ (.cons ?_ .nil)
    · refine ((List.forall₂_and_left _ _).mpr ⟨hmem, hearlier⟩).imp fun n e he => ?_
      exact Files.lists_other he.2 hp.sized he.1 (hne he.2.kind?) hq
    · exact Files.lists_submit hlists hp hx hs hk hinside hnew.symm hbuffer hq
  · rcases hq.packet_cases hk with hk | rfl
    · obtain ⟨n, hn, hk⟩ := h.packets k hk
      refine ⟨n, hq.kind? hn, fun v hv => ?_⟩
      by_cases hnsubmit : n = submit
      · subst hnsubmit
        rw [hq.shared_submit hn hnew.symm hv]
        exact List.mem_append_left _ (hk v hv)
      · rw [hq.shared_other hn hnsubmit (hne hn) hv]
        exact hk v hv
    · refine ⟨submit, hq.kind? hlists.kind?, fun v hv => ?_⟩
      rw [hq.shared_submit hlists.kind? hnew.symm hv]
      exact List.mem_append_right _ (List.mem_singleton.mpr rfl)

end Filing

end Pass

end CaptureForest
