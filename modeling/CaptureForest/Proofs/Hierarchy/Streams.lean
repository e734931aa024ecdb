import CaptureForest.Proofs.Hierarchy.Renames

/-! # Streams beside captures

A command stream can be built alone, or as a capture with one submit. The two builds go through the
same work in lockstep; alone, the stream has one engine only, so what comes behind the engines has
other numbers (`Engine.renumber`). They fail for the same cause, or they come to hierarchies that
are equal but for these numbers and for the engines without work
(`Hierarchy.ofStream_renumbers`). -/

namespace CaptureForest

namespace Engine

variable {engine : Engine} {n : Nat}

/-- The numbers of a hierarchy that has one engine, in a hierarchy that has all of them. -/
def renumber (engine : Engine) : Nat → Nat
  | 0 => 0
  | 1 => 1 + all.idxOf engine
  | n => n + 4

theorem idxOf_lt (engine : Engine) : all.idxOf engine < 5 := by cases engine <;> decide

theorem renumber_of_two_le (hn : 2 ≤ n) : engine.renumber n = n + 4 := by
  obtain ⟨n, rfl⟩ := Nat.exists_eq_add_of_le' hn
  rfl

theorem renumber_cases (engine : Engine) (n : Nat) :
    n = 0 ∧ engine.renumber n = 0 ∨ n = 1 ∧ engine.renumber n = 1 + all.idxOf engine ∨
      2 ≤ n ∧ engine.renumber n = n + 4 := by
  match n with
  | 0 => exact .inl ⟨rfl, rfl⟩
  | 1 => exact .inr (.inl ⟨rfl, rfl⟩)
  | n + 2 => exact .inr (.inr ⟨Nat.le_add_left 2 n, rfl⟩)

theorem renumber_injective (engine : Engine) : Function.Injective engine.renumber := by
  intro a b h
  have hlt := engine.idxOf_lt
  rcases engine.renumber_cases a with ⟨ha, ha'⟩ | ⟨ha, ha'⟩ | ⟨ha, ha'⟩ <;>
    rcases engine.renumber_cases b with ⟨hb, hb'⟩ | ⟨hb, hb'⟩ | ⟨hb, hb'⟩ <;> omega

/-- Another engine has a number of its own. -/
theorem renumber_ne {engine' : Engine} (hne : engine' ≠ engine) (n : Nat) :
    engine.renumber n ≠ 1 + all.idxOf engine' := by
  have hlt := engine'.idxOf_lt
  have hidx : all.idxOf engine ≠ all.idxOf engine' := by
    revert hne
    cases engine <;> cases engine' <;> decide
  rcases engine.renumber_cases n with ⟨-, hn⟩ | ⟨-, hn⟩ | ⟨hle, hn⟩ <;> omega

end Engine

/-- The renaming from one engine to all of them. In the view of engines the root lists more. -/
def Renaming.ofEngine (engine : Engine) : Renaming where
  map := engine.renumber
  inj := engine.renumber_injective
  root := rfl
  engines := Engine.all.zipIdx 1
  exempt v k := v == .engine && k == .root

namespace Pass

variable {o : Options} {engine queue : Engine} {engines : List Engine} {words : Array UInt32}
  {v : View} {n : Nat} {p p' q q' : Pass}

/-! ## Engines -/

/-- The root of the view of engines lists these, whatever has happened. -/
theorem Reached.lists (h : p.Reached) : p.owned .engine rootNode = p.engines.map (·.2) :=
  h.induct Started.lists fun hp hc h => by
    obtain ⟨hengines, howned⟩ := hc.engines_eq hp
    rw [hengines, howned, h]

/-- The nodes of all engines are what they were at the start. -/
theorem Reached.engines_named (h : p.Reached) :
    ∀ e ∈ p.engines, p.nodes[e.2]? = some (engineNode e.1) := by
  refine h.induct (I := fun p => ∀ e ∈ p.engines, p.nodes[e.2]? = some (engineNode e.1))
    (fun {engines q} hq e he => ?_) fun hp hc h e he => ?_
  · obtain ⟨engine, n⟩ := e
    rw [hq.engines] at he
    obtain ⟨hle, hget⟩ := List.mk_mem_zipIdx_iff_le_and_getElem?_sub.mp he
    obtain ⟨i, rfl⟩ := Nat.exists_eq_add_of_le hle
    rw [Nat.add_sub_cancel_left] at hget
    rw [← Array.getElem?_toList, hq.nodes, Nat.add_comm, List.getElem?_cons_succ, List.getElem?_map,
      hget]
    rfl
  · rw [(hc.engines_eq hp).1] at he
    obtain ⟨_, hnodes⟩ := hc.nodes
    have hold := h e he
    rw [hnodes, Nodes.getElem?_append_old (Array.getElem?_eq_some_iff.mp hold).1, hold]

theorem Started.size_eq (h : p.Started engines) : p.nodes.size = engines.length + 1 := by
  rw [← Array.length_toList, h.nodes, List.length_cons, List.length_map]

/-! ## Two starts -/

/-- A pass that starts with all engines is one that starts with one of them, in other numbers. -/
theorem Started.renumbers (h : p.Started [engine]) (h' : p'.Started Engine.all)
    (hpresents : p'.presents = p.presents) (hversion : p'.metadataVersion = p.metadataVersion) :
    p.Renames (.ofEngine engine) p' where
  recalls := by
    have hcontext : (p.renamed (.ofEngine engine)).context =
        p.context.renamed (.ofEngine engine) := rfl
    unfold Recalls
    rw [hcontext, h'.context_eq, h.context_eq, h'.engines, hpresents, hversion]
    simp [renamed, Pass.context, Renaming.ofEngine, IbStack.renamed]
  sized := h.sound.sized
  sized' := h'.sound.sized
  fresh i := by
    rw [h.size_eq, h'.size_eq]
    refine (Engine.renumber_of_two_le (Nat.le_add_right 2 i)).trans ?_
    exact Nat.add_right_comm 2 i 4
  nodes n := by
    rw [← Array.getElem?_toList, ← Array.getElem?_toList, h.nodes, h'.nodes]
    obtain _ | _ | n := n
    · rfl
    · cases engine <;> rfl
    · rfl
  owned {v n} hexempt := by
    have hne : ¬(v = .engine ∧ n = rootNode) := by
      rintro ⟨rfl, rfl⟩
      cases hexempt .root (h.sound.arranged.root.mpr rfl)
    have hne' : ¬(v = .engine ∧ engine.renumber n = rootNode) := fun hroot =>
      hne ⟨hroot.1, engine.renumber_injective hroot.2⟩
    rw [h.owned_eq_nil hne]
    exact h'.owned_eq_nil hne'
  shared v n := by
    rw [h.shared_eq_nil, h'.shared_eq_nil]
    rfl
  bare {m} hm v := ⟨h'.owned_eq_nil fun hroot => hm rootNode hroot.2.symm, h'.shared_eq_nil v m⟩

theorem ofEngine_pact (o : Options) (engine : Engine) :
    Pact (.ofEngine engine) o o fun p _ => p.engines = [(engine, 1)] where
  alike := ⟨rfl, rfl⟩
  submits v := by cases v <;> rfl
  fit h _ _ := h.ownersFit ..
  enters h _ _ _ hq _ := hq.engines_eq.trans h
  rests h _ hq _ := hq.engines.trans h

-- An action without variables would be run when a statement about it is unified with another.
attribute [local irreducible] start runSubmit

/-- The build of a stream and that of the capture it stands for stay in lockstep. -/
theorem buildStream_agrees (o : Options) (hengine : engine.isDecodable) (queue : Engine)
    (words : Array UInt32) :
    Agree (buildStream o engine queue words) {} (build o (.ofStream engine queue words)) {}
      fun h _ h' _ => ∃ q q', BothBetween (.ofEngine engine) (fun p _ => p.engines = [(engine, 1)])
        (.ofStream engine queue words) (Capture.ofStream engine queue words).submits.zipIdx q q' ∧
          q.Becomes h ∧ q'.Becomes h' := by
  let c : Capture := .ofStream engine queue words
  let s : Submit := { engine, queue, ibs := [{ va := 0, size := words.size }] }
  have hsubmits (f : Submit × Nat → PassM Unit) : c.submits.zipIdx.forM f = f (s, 0) := bind_pure _
  rw [build_eq]
  unfold buildStream
  rw [if_pos hengine, hsubmits]
  obtain ⟨_, p, hstart, hp, hpresents, hversion⟩ := (start_succeeds (p := {}) [engine]).exists_ok
  obtain ⟨_, p', hprelude, hp', hpresents', hversion'⟩ := (prelude_started (p := {}) c).exists_ok
  have hright := (prelude_succeeds c).of_ok hprelude
  have hboth : BothBetween (.ofEngine engine) (fun p _ => p.engines = [(engine, 1)]) c [] p p' := {
    inStep := {
      renames := hp.renumbers hp' (hpresents'.trans hpresents.symm) (hversion'.trans hversion.symm)
      common := hp.engines
      engines := fun e n hn => by
        obtain ⟨before, after, heq, -⟩ := List.lookup_eq_some_iff.mp hn
        have hmem : (e, n) ∈ p.engines := by simp [heq]
        rw [hp.engines] at hmem
        cases List.mem_singleton.mp hmem
        rw [hp'.engines]
        cases engine <;> rfl }
    left := hp.between (by simp [c, Capture.ofStream])
    right := hright }
  have hs : c.submits[0]? = some s := rfl
  refine (Agree.of_ok (Q := fun _ q _ q' => q = p ∧ q' = p') hstart hprelude ⟨rfl, rfl⟩).bind ?_
  rintro _ _ _ _ ⟨rfl, rfl⟩
  refine (hboth.runSubmit_agrees (ofEngine_pact o engine) hs).bind ?_
  intro _ q _ q' hq
  exact hq.finish_agrees

end Pass

namespace Hierarchy

/-- The hierarchy `whole` has the nodes of `h` among those of all engines. -/
structure RenumbersTo (engine : Engine) (h whole : Hierarchy) : Prop where
  size : whole.numNodes = h.numNodes + 4
  nodes : ∀ n, whole.nodes[engine.renumber n]? = h.nodes[n]?
  events : whole.events = h.events.map engine.renumber
  metadataVersion : whole.metadataVersion = h.metadataVersion
  hasCallMarker : whole.hasCallMarker = h.hasCallMarker
  children : ∀ v n, ¬(v = .engine ∧ n = rootNode) →
    ((whole.forest v).children (engine.renumber n)).toList =
      ((h.forest v).children n).toList.map engine.renumber
  shared : ∀ v n, whole.shared v (engine.renumber n) = (h.shared v n).map engine.renumber
  /-- One of the hierarchies lists its engine in the view of engines, the other all of them. -/
  root : ((h.forest .engine).children rootNode).toList = [1] ∧
    ((whole.forest .engine).children rootNode).toList = List.range' 1 Engine.all.length
  /-- Nothing is listed below the other engines. -/
  others : ∀ engine' ≠ engine,
    whole.nodes[1 + Engine.all.idxOf engine']? = some (Pass.engineNode engine') ∧
      ∀ v, (whole.forest v).children (1 + Engine.all.idxOf engine') = #[] ∧
        whole.shared v (1 + Engine.all.idxOf engine') = []

variable {engine queue : Engine} {words : Array UInt32} {c : Capture} {q q' : Pass}
  {h whole : Hierarchy}

theorem RenumbersTo.of_becomes
    (hboth : Pass.BothBetween (.ofEngine engine) (fun p _ => p.engines = [(engine, 1)]) c
      c.submits.zipIdx q q')
    (hbecomes : q.Becomes h) (hbecomes' : q'.Becomes whole) : h.RenumbersTo engine whole := by
  have hrenames := hboth.inStep.renames
  have hengines' : q'.engines = Engine.all.zipIdx 1 := (congrArg Pass.engines hrenames.recalls :)
  have hengine : q.nodes.kind? 1 = some .engine :=
    hboth.left.sound.engines engine 1 (by rw [hboth.inStep.common]; exact List.mem_singleton_self _)
  have hroot {r : Pass} {hier : Hierarchy} (hr : r.Reached) (hbecomes : r.Becomes hier) :
      ((hier.forest .engine).children rootNode).toList = r.engines.map (·.2) := by
    rw [(hbecomes.forests .engine).children]
    exact hr.lists
  exact {
    size := by
      rw [numNodes, numNodes, hbecomes.nodes, hbecomes'.nodes, hrenames.size_eq]
      exact Engine.renumber_of_two_le (Nodes.kind?_lt hengine)
    nodes := fun n => by
      rw [hbecomes.nodes, hbecomes'.nodes]
      exact hrenames.nodes n
    events := by
      rw [hbecomes.events, hbecomes'.events]
      exact hrenames.recalls.events
    metadataVersion := by
      rw [hbecomes.metadataVersion, hbecomes'.metadataVersion, hrenames.recalls.metadataVersion]
    hasCallMarker := by
      rw [hbecomes.hasCallMarker, hbecomes'.hasCallMarker, hrenames.recalls.hasCallMarker]
    children := fun v n hne => by
      refine children_renamed hrenames hbecomes hbecomes' fun k hk => Bool.eq_false_iff.mpr ?_
      intro hexempt
      obtain ⟨hv, rfl⟩ : Pass.source v = .engine ∧ k = .root := by
        simpa [Renaming.ofEngine] using hexempt
      refine hne ⟨?_, hboth.left.sound.arranged.root.mp hk⟩
      cases v with
      | engine => rfl
      | submit | allEvent | vulkanCall | vulkanEvent | rgp => cases hv
    shared := shared_renamed hrenames hbecomes hbecomes' (fun k => rfl) hboth.left.sound
      hboth.right.sound hboth.left.reached hboth.right.reached
    root := by
      rw [hroot hboth.left.reached hbecomes, hroot hboth.right.reached hbecomes',
        hboth.inStep.common, hengines']
      exact ⟨rfl, rfl⟩
    others := fun engine' hne => by
      have hbare := engine.renumber_ne hne
      have hmem : (engine', 1 + Engine.all.idxOf engine') ∈ q'.engines := by
        rw [hengines']
        cases engine' <;> decide
      have hnode := hboth.right.reached.engines_named _ hmem
      rw [← hbecomes'.nodes] at hnode
      refine ⟨hnode, fun v => ⟨children_bare hrenames hbecomes' hbare, ?_⟩⟩
      refine shared_bare hrenames hbecomes' hbare ?_
      unfold Pass.callClass Nodes.aux?
      rw [hnode]
      rfl }

-- As above, with whole builds.
attribute [local irreducible] Pass.build Pass.buildStream

/-- A command stream that is built alone comes out as in the capture that it stands for: both builds
fail for the same cause, or both come to hierarchies that are equal but for the numbers of the nodes
and for the other engines. -/
theorem ofStream_renumbers (o : Options) (hengine : engine.isDecodable) (queue : Engine)
    (words : Array UInt32) :
    (∃ e, ofStream o engine queue words = .error e ∧
      ofCapture o (.ofStream engine queue words) = .error e) ∨
    ∃ h whole, ofStream o engine queue words = .ok h ∧
      ofCapture o (.ofStream engine queue words) = .ok whole ∧ h.RenumbersTo engine whole := by
  refine (Pass.results_agree (Pass.buildStream_agrees o hengine queue words) rfl rfl).imp_right ?_
  rintro ⟨h, whole, hh, hwhole, q, q', hboth, hbecomes, hbecomes'⟩
  exact ⟨h, whole, hh, hwhole, .of_becomes hboth hbecomes hbecomes'⟩

/-- A dispatch on the second engine. The submit is the first node behind the engines. -/
theorem ofStream_renumbers_dispatch :
    let words := #[Header.ofOpcode Opcode.nop 1, CallMarker.word .dispatch,
      Header.ofOpcode Opcode.dispatch 3, 1, 1, 1, 0]
    ∃ h whole, ofStream {} .compute .compute words = .ok h ∧
      ofCapture {} (.ofStream .compute .compute words) = .ok whole ∧
      h.RenumbersTo .compute whole ∧ (h.forest .engine).parent? 2 = some 1 ∧
      (whole.forest .engine).parent? 6 = some 2 ∧ h.events = #[9] ∧ whole.events = #[13] := by
  intro words
  have hstream : ∃ h, ofStream {} .compute .compute words = .ok h ∧
      (h.forest .engine).parent? 2 = some 1 ∧ h.events = #[9] := by
    decide +kernel
  have hcapture : ∃ h, ofCapture {} (.ofStream .compute .compute words) = .ok h ∧
      (h.forest .engine).parent? 6 = some 2 ∧ h.events = #[13] := by
    decide +kernel
  obtain ⟨h, hb, hparent, hevents⟩ := hstream
  obtain ⟨whole, hb', hparent', hevents'⟩ := hcapture
  refine ⟨h, whole, hb, hb', ?_, hparent, hparent', hevents, hevents'⟩
  rcases ofStream_renumbers {} (show Engine.isDecodable .compute from rfl) .compute words with
    ⟨e, he, -⟩ | ⟨_, _, hr, hr', hrenumbers⟩
  · cases hb.symm.trans he
  · cases hb.symm.trans hr
    cases hb'.symm.trans hr'
    exact hrenumbers

end Hierarchy

end CaptureForest
