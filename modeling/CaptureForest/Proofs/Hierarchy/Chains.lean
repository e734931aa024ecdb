import CaptureForest.Proofs.Hierarchy.Calls
import CaptureForest.Proofs.Hierarchy.Lockstep
import CaptureForest.Proofs.Hierarchy.Mirror
import CaptureForest.Proofs.Pass.Chains

/-! # Nested and flattened chains

Whether chained buffers are nested or flattened, a build comes out alike but for the owners of the
chained buffers (`Hierarchy.ofCapture_flattens`). Nobody asks the views of buffers for an owner
while a pass runs, so the two builds stay in lockstep. -/

namespace CaptureForest

namespace Pass

variable {o : Options} {c : Capture} {p q q' : Pass} {engines : List (Engine × Nat)} {v : View}

theorem keepNumbers_pact (o : Options) (engines : List (Engine × Nat)) :
    Pact (keepNumbers engines) { o with flattenChains := false } { o with flattenChains := true }
      Flattens where
  alike := ⟨rfl, rfl⟩
  submits v := by cases v <;> rfl
  fit h hp _ := keepNumbers_fit h hp
  enters h hrenames hp hp' hq hq' := h.enters hrenames hp hp' hq hq'
  rests h hrenames hq hq' := h.rests hrenames hq hq'

/-- Nothing is renamed if all numbers stay. -/
theorem renamed_keepNumbers (p : Pass) : p.renamed (keepNumbers p.engines) = p := by
  have hruns (s : IbStack) : s.renamed (keepNumbers p.engines) = s := by
    refine (List.map_congr_left fun r _ => ?_).trans s.map_id
    simp [IbRun.renamed, keepNumbers]
  have hscope : p.scope.map (Scope.renamed (keepNumbers p.engines)) = p.scope := Option.map_id'
  have hevents : p.beginEvents.map (PendingEvent.renamed (keepNumbers p.engines)) =
      p.beginEvents := Array.map_id' p.beginEvents
  unfold renamed
  rw [hruns, hruns, hscope, hevents]
  simp [keepNumbers]

theorem renames_self (h : p.Sized) : p.Renames (keepNumbers p.engines) p where
  recalls := (congrArg context p.renamed_keepNumbers).symm
  sized := h
  sized' := h
  fresh _ := rfl
  nodes _ := rfl
  owned _ := (List.map_id _).symm
  shared _ _ := (List.map_id _).symm
  bare hm := absurd rfl (hm _)

theorem Started.flattens {engines : List Engine} (h : p.Started engines) : p.Flattens p := by
  have hdraw : p.drawIbs = [] := h.remembers Pass.drawIbs (fun _ => rfl) fun _ _ _ _ => rfl
  have hconstant : p.constantIbs = [] :=
    h.remembers Pass.constantIbs (fun _ => rfl) fun _ _ _ _ => rfl
  have hnone {n : Nat} : p.nodes.kind? n ≠ some .ib := fun hn => by
    rcases h.kinds hn with hk | hk <;> cases hk
  exact {
    starts := by simp [hdraw, hconstant]
    chains := by simp [hdraw, hconstant]
    chained := fun v _ n c hc => absurd hc.1 hnone
    others := fun v _ n c hc => absurd hc.1 hnone
    ascending := fun v _ n hn => absurd hn hnone }

/-! ## The edges of both passes -/

theorem Renames.nodes_eq (h : p.Renames (keepNumbers engines) q) : q.nodes = p.nodes :=
  Array.ext_getElem? fun n => h.nodes n

theorem Renames.edges_eq (h : p.Renames (keepNumbers engines) q) (hv : v ∉ View.withBuffers) :
    q.edges.get v = p.edges.get v := by
  have hexempt (k : NodeKind) : (keepNumbers engines).exempt v k = false := by
    simp [keepNumbers, hv]
  have howned (n : Nat) : q.owned v n = p.owned v n :=
    (h.owned fun k _ => hexempt k).trans (List.map_id _)
  have hshared (n : Nat) : q.shared v n = p.shared v n := (h.shared v n).trans (List.map_id _)
  refine EdgeLists.ext ?_ (fun n => Array.ext' (howned n)) fun n => Array.ext' (hshared n)
  rw [h.sized v, h.sized' v, h.nodes_eq]

/-- The views that list no buffers have the same edges. -/
theorem Renames.allEdges_eq (h : p.Renames (keepNumbers engines) q) (hv : v ∉ View.withBuffers) :
    q.allEdges.get v = p.allEdges.get v := by
  have hcalls : q.edges.allEvent = p.edges.allEvent := h.edges_eq (v := .allEvent) (by decide)
  cases v with
  | engine | submit => exact absurd (by decide) hv
  | allEvent | rgp => exact h.edges_eq hv
  | vulkanCall =>
    show q.edges.allEvent.without _ = p.edges.allEvent.without _
    rw [hcalls, h.nodes_eq]
  | vulkanEvent =>
    show (q.edges.allEvent.without _).merged _ = (p.edges.allEvent.without _).merged _
    rw [hcalls, h.nodes_eq]

/-- The other views list no children of a buffer. -/
theorem allEdges_of_ib (hp : p.Sound) {n : Nat} (hn : p.nodes.kind? n = some .ib)
    (hv : v ∉ View.withBuffers) : (p.allEdges.get v).owned n = #[] := by
  refine Array.eq_empty_iff_forall_not_mem.mpr fun c hc => ?_
  obtain ⟨a, b, ha, -, hab, -⟩ := hp.arranged.fits (mem_owned_of_allEdges hc)
  cases hn.symm.trans ha
  have hnone : ∀ v, v ∉ View.withBuffers → ∀ b ∈ NodeKind.all, ¬(source v).owns .ib b := by decide
  exact hnone v hv b b.mem_all hab

/-- In the views of buffers, what is no chained buffer has one owner in both passes. -/
theorem Flattens.owned_iff (h : p.Flattens q) (hrenames : p.Renames (keepNumbers engines) q)
    (hp : p.Sound) (hq : q.Sound) (hv : v ∈ View.withBuffers) {n c : Nat}
    (hc : p.nodes.ibKind? c ≠ some .chain) : c ∈ q.owned v n ↔ c ∈ p.owned v n := by
  have hsub {n : Nat} (hmem : c ∈ q.owned v n) : c ∈ p.owned v n := by
    obtain ⟨a, b, ha, hb, hab, -⟩ := hq.arranged.fits hmem
    by_cases hb' : b = .ib
    · exact (h.others v hv ⟨hb' ▸ hb, hmem⟩ hc).2
    · -- Buffers own nothing else, so the owner is not exempt.
      have ha' : a ≠ .ib := by
        rintro rfl
        have honly : ∀ v ∈ View.withBuffers, ∀ b ∈ NodeKind.all, v.owns .ib b → b = .ib := by decide
        exact hb' (honly v hv b b.mem_all hab)
      have howned : q.owned v n = (p.owned v n).map id := hrenames.owned fun k hk => by
        obtain rfl : k = a := by
          rw [hrenames.nodes_eq, hk] at ha
          exact Option.some.inj ha
        simp [keepNumbers, ha']
      rwa [howned, List.map_id] at hmem
  refine ⟨hsub, fun hmem => ?_⟩
  obtain ⟨_, b, -, hb, howns, -⟩ := hp.arranged.fits hmem
  rw [← hrenames.nodes_eq] at hb
  obtain ⟨m, hm⟩ := hq.arranged.placed hb (View.places_of_owns howns)
  rwa [hp.arranged.once hmem (hsub hm)]

-- An action without variables would be run when a statement about it is unified with another.
attribute [local irreducible] start

/-- A build with nested chains and one with flattened chains stay in lockstep. -/
theorem build_flattens (o : Options) (c : Capture) :
    Agree (build { o with flattenChains := false } c) {} (build { o with flattenChains := true } c)
      {} fun h _ h' _ => ∃ engines q q',
        BothBetween (keepNumbers engines) Flattens c c.submits.zipIdx q q' ∧ q.Becomes h ∧
          q'.Becomes h' := by
  obtain ⟨_, p, hp, hstarted, -⟩ := (prelude_started (p := {}) c).exists_ok
  have hbetween := (prelude_succeeds c).of_ok hp
  have hboth : BothBetween (keepNumbers p.engines) Flattens c [] p p := {
    inStep := ⟨renames_self hbetween.sound.sized, hstarted.flattens, fun _ _ h => h⟩
    left := hbetween
    right := hbetween }
  rw [build_eq, build_eq]
  refine (Agree.of_ok (Q := fun _ q _ q' => q = p ∧ q' = p) hp hp ⟨rfl, rfl⟩).bind ?_
  rintro _ _ _ _ ⟨rfl, rfl⟩
  refine (hboth.submits_agree (keepNumbers_pact o _)).bind ?_
  intro _ q _ q' hq
  refine hq.finish_agrees.imp ?_
  rintro h _ h' _ ⟨r, r', hr, hbecomes, hbecomes'⟩
  exact ⟨_, r, r', hr, hbecomes, hbecomes'⟩

end Pass

namespace Hierarchy

variable {o : Options} {c : Capture} {q q' : Pass} {engines : List (Engine × Nat)}

/-- The hierarchy `flat` is `nested` with its chains flattened. -/
structure FlattensTo (nested flat : Hierarchy) : Prop where
  nodes : flat.nodes = nested.nodes
  events : flat.events = nested.events
  metadataVersion : flat.metadataVersion = nested.metadataVersion
  hasCallMarker : flat.hasCallMarker = nested.hasCallMarker
  forests : ∀ v ∈ [View.allEvent, .vulkanCall, .vulkanEvent, .rgp], flat.forest v = nested.forest v
  shared : ∀ v n, flat.shared v n = nested.shared v n
  /-- Only buffers have other children. -/
  children : ∀ v n, nested.nodes.kind? n ≠ some .ib →
    (flat.forest v).children n = (nested.forest v).children n
  /-- What is no chained buffer keeps its owner. -/
  kept : ∀ v c, nested.nodes.ibKind? c ≠ some .chain →
    (flat.forest v).parent? c = (nested.forest v).parent? c
  /-- The owner of a chained buffer is the first buffer on its way up that is not chained. -/
  chained : ∀ v ∈ View.withBuffers, ∀ c, nested.nodes.ibKind? c = some .chain →
    ∃ n, (flat.forest v).parent? c = some n ∧
      FirstUnchained nested.nodes.ibKind? (nested.Owns v) c n
  /-- No chained buffer owns another. -/
  unchained : ∀ v ∈ View.withBuffers, ∀ n c, flat.Owns v n c →
    flat.nodes.ibKind? c = some .chain → flat.nodes.ibKind? n ≠ some .chain
  ascending : ∀ v n, nested.nodes.kind? n = some .ib →
    ((nested.forest v).children n).toList.Pairwise (· < ·) ∧
      ((flat.forest v).children n).toList.Pairwise (· < ·)

variable {nested flat : Hierarchy}

theorem FlattensTo.of_becomes (h : Pass.BothBetween (keepNumbers engines) Pass.Flattens c
    c.submits.zipIdx q q') (hnested : q.Becomes nested) (hflat : q'.Becomes flat) :
    nested.FlattensTo flat := by
  have hrenames := h.inStep.renames
  have hflattens := h.inStep.common
  have hp := h.left.sound
  have hp' := h.right.sound
  have hnodes : flat.nodes = nested.nodes := by
    rw [hflat.nodes, hnested.nodes, hrenames.nodes_eq]
  have hforests {v : View} (hv : v ∉ View.withBuffers) : flat.forest v = nested.forest v := by
    have hbakes := hflat.forests v
    rw [hrenames.allEdges_eq hv] at hbakes
    exact hbakes.unique (hnested.forests v)
  have hpackets {v : View} (hv : v ∈ View.withBuffers) : v ∈ View.withPackets := by
    revert v
    decide
  have howns {v : View} (hv : v ∈ View.withBuffers) {n c : Nat} :
      (flat.Owns v n c ↔ c ∈ q'.owned v n) ∧ (nested.Owns v n c ↔ c ∈ q.owned v n) :=
    ⟨owns_iff hflat.forests (hpackets hv), owns_iff hnested.forests (hpackets hv)⟩
  have hchildren {v : View} (hv : v ∈ View.withBuffers) (n : Nat) :
      ((flat.forest v).children n).toList = q'.owned v n ∧
        ((nested.forest v).children n).toList = q.owned v n := by
    rw [(hflat.forests v).children, (hnested.forests v).children, Pass.allEdges_get (hpackets hv),
      Pass.allEdges_get (hpackets hv)]
    exact ⟨rfl, rfl⟩
  have hib {c : Nat} (hkind : nested.nodes.ibKind? c = some .chain) :
      q'.nodes.kind? c = some .ib := by
    rw [← hnodes, hflat.nodes] at hkind
    exact (Pass.Reached.typed h.right.reached).kind?_ib hkind
  have hchained {v : View} (hv : v ∈ View.withBuffers) {n c : Nat} (hc : c ∈ q'.owned v n)
      (hkind : nested.nodes.ibKind? c = some .chain) :
      FirstUnchained nested.nodes.ibKind? (nested.Owns v) c n := by
    have hbuffer := hib hkind
    rw [hnested.nodes] at hkind ⊢
    exact (hflattens.chained v hv ⟨hbuffer, hc⟩ hkind).mono (fun _ _ => id)
      fun _ _ hc => (howns hv).2.mpr hc.2
  exact {
    nodes := hnodes
    events := by rw [hflat.events, hnested.events, hrenames.recalls.events]; simp [keepNumbers]
    metadataVersion := by
      rw [hflat.metadataVersion, hnested.metadataVersion, hrenames.recalls.metadataVersion]
    hasCallMarker := by
      rw [hflat.hasCallMarker, hnested.hasCallMarker, hrenames.recalls.hasCallMarker]
    forests := fun v hv => hforests (by revert v; decide)
    shared := fun v n => by
      by_cases hv : v ∈ View.withBuffers
      · rw [shared_eq hflat.forests (hpackets hv), shared_eq hnested.forests (hpackets hv)]
        exact (hrenames.shared v n).trans (List.map_id _)
      · show ((flat.forest v).shared n).toList = ((nested.forest v).shared n).toList
        rw [hforests hv]
    children := fun v n hn => by
      by_cases hv : v ∈ View.withBuffers
      · refine Array.ext' ?_
        rw [(hchildren hv n).1, (hchildren hv n).2]
        refine (hrenames.owned fun k hk => ?_).trans (List.map_id _)
        have hne : k ≠ .ib := by
          rintro rfl
          exact hn (hnested.nodes ▸ hk)
        simp [keepNumbers, hne]
      · rw [hforests hv]
    kept := fun v c hc => by
      by_cases hv : v ∈ View.withBuffers
      · refine Option.ext fun n => ?_
        rw [parent?_iff (hflat.forests v), parent?_iff (hnested.forests v)]
        rw [hnested.nodes] at hc
        exact (howns hv).1.trans ((hflattens.owned_iff hrenames hp hp' hv hc).trans
          (howns hv).2.symm)
      · rw [hforests hv]
    chained := fun v hv c hc => by
      have hplaces : v.places .ib := by revert v; decide
      obtain ⟨n, hn⟩ := hp'.arranged.placed (hib hc) hplaces
      exact ⟨n, (parent?_iff (hflat.forests v)).mpr ((howns hv).1.mpr hn), hchained hv hn hc⟩
    unchained := fun v hv n c hn hc => by
      rw [hnodes] at hc ⊢
      exact (hchained hv ((howns hv).1.mp hn) hc).not_chain
    ascending := fun v n hn => by
      rw [hnested.nodes] at hn
      by_cases hv : v ∈ View.withBuffers
      · rw [(hchildren hv n).1, (hchildren hv n).2]
        exact hflattens.ascending v hv n hn
      · rw [hforests hv, (hnested.forests v).children, Pass.allEdges_of_ib hp hn hv]
        exact ⟨.nil, .nil⟩ }

-- As above, with a whole build.
attribute [local irreducible] Pass.build

/-- Nested or flattened, the chains of a capture make no difference but for the owners of chained
buffers: both builds fail for the same cause, or both come out with hierarchies of which one is the
other with its chains flattened. -/
theorem ofCapture_flattens (o : Options) (c : Capture) :
    (∃ e, ofCapture { o with flattenChains := false } c = .error e ∧
      ofCapture { o with flattenChains := true } c = .error e) ∨
    ∃ nested flat, ofCapture { o with flattenChains := false } c = .ok nested ∧
      ofCapture { o with flattenChains := true } c = .ok flat ∧ nested.FlattensTo flat := by
  refine (Pass.results_agree (Pass.build_flattens o c) rfl rfl).imp_right ?_
  rintro ⟨nested, flat, hnested, hflat, engines, q, q', hq, hbecomes, hbecomes'⟩
  exact ⟨nested, flat, hnested, hflat, .of_becomes hq hbecomes hbecomes'⟩

/-- A buffer chained behind a chained buffer is listed below that one, or below the first. -/
theorem ofCapture_flattens_chain :
    let c : Capture := {
      submits := [{ engine := .universal, queue := .universal, ibs := [{ va := 0, size := 4 }] }]
      memory := .flat (Words.toBytes #[Header.ofOpcode Opcode.chain 3, 16, 0, 4,
        Header.ofOpcode Opcode.chain 3, 32, 0, 1, Header.ofOpcode Opcode.nop 0]) }
    ∃ nested flat, ofCapture {} c = .ok nested ∧ ofCapture { flattenChains := true } c = .ok flat ∧
      nested.FlattensTo flat ∧ (nested.forest .engine).parent? 17 = some 12 ∧
      (flat.forest .engine).parent? 17 = some 7 := by
  intro c
  have hnested : ∃ h, ofCapture {} c = .ok h ∧ (h.forest .engine).parent? 17 = some 12 := by
    decide +kernel
  have hflat : ∃ h, ofCapture { flattenChains := true } c = .ok h ∧
      (h.forest .engine).parent? 17 = some 7 := by
    decide +kernel
  obtain ⟨nested, hb, hparent⟩ := hnested
  obtain ⟨flat, hb', hparent'⟩ := hflat
  refine ⟨nested, flat, hb, hb', ?_, hparent, hparent'⟩
  rcases ofCapture_flattens {} c with ⟨e, he, -⟩ | ⟨_, _, hr, hr', hflattens⟩
  · cases hb.symm.trans he
  · cases hb.symm.trans hr
    cases hb'.symm.trans hr'
    exact hflattens

end Hierarchy

end CaptureForest
