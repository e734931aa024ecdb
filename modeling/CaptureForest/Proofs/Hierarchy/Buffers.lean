import CaptureForest.Proofs.Hierarchy.Progress
import CaptureForest.Proofs.Pass.FlatStack
import CaptureForest.Proofs.Walk.Bracket

/-! # Packets and their buffers

A pass knows of the buffers of a walk by its steps alone. At every moment of a build its stack is
that of the walk (`Hierarchy.ofCapture_buffers`), whether the buffers are divided into runs or kept
one by one, so in the finished hierarchy each packet is shared by the buffer that it was executed
in. -/

namespace CaptureForest

namespace Pass

variable {p : Pass} {c : Capture} {before after : List Submit} {s : Submit} {t rest : List Step}

/-- A build up to the steps `t` of the walk of the submit `s`, which comes behind others. -/
def upTo (o : Options) (c : Capture) (before : List Submit) (s : Submit) (t : List Step) :
    PassM Unit := do
  prelude c
  before.zipIdx.forM fun (s, index) => runSubmit o c.memory index s
  submitStart before.length s
  t.forM (step o c.memory before.length)

theorem zipIdx_submits (hc : c.submits = before ++ s :: after) :
    c.submits.zipIdx = before.zipIdx ++ (s, before.length) :: after.zipIdx (before.length + 1) := by
  rw [hc, List.zipIdx_append, List.zipIdx_cons, Nat.zero_add]

/-- Every build goes through each of its moments. -/
theorem build_eq_upTo (o : Options) (hc : c.submits = before ++ s :: after) (hs : s.isWalked)
    (ht : Walk.steps c.memory before.length s.ibs = t ++ rest) :
    ∃ next : PassM Hierarchy, build o c = upTo o c before s t >>= fun _ => next := by
  have hwalk : walk o c.memory before.length s.ibs =
      (t.forM (step o c.memory before.length)) >>= fun _ =>
        rest.forM (step o c.memory before.length) >>= fun _ =>
          MonadExcept.ofExcept (Walk.outcome c.memory before.length s.ibs) := by
    unfold walk
    rw [Walk.run_eq_replay, Walk.replay, ht]
    simp only [List.forM_eq_forM, List.forM_append, bind_assoc]
  refine ⟨do
    rest.forM (step o c.memory before.length)
    MonadExcept.ofExcept (Walk.outcome c.memory before.length s.ibs)
    submitEnd before.length
    (after.zipIdx (before.length + 1)).forM fun (s, index) => runSubmit o c.memory index s
    finish, ?_⟩
  rw [build_eq, zipIdx_submits hc]
  simp only [upTo, runSubmit, hs, if_true, hwalk, List.forM_eq_forM, List.forM_append,
    List.forM_cons, bind_assoc]

theorem upTo_leads (o : Options) (hc : c.submits = before ++ s :: after) (hs : s.isWalked)
    (ht : Walk.steps c.memory before.length s.ibs = t ++ rest) :
    Leads (upTo o c before s t) p (fun _ q => ∃ pos submit final,
        q.During c before.zipIdx s before.length t pos submit ∧
        Walk.Path c.memory before.length s.ibs pos rest final) fun e _ => c.Fault e := by
  have hget : c.submits[before.length]? = some s := by rw [hc]; simp
  obtain ⟨final, hfinal, -⟩ := Walk.path_steps c.memory before.length s.ibs
  rw [ht] at hfinal
  unfold upTo
  refine (prelude_succeeds c).bind ?_
  intro _ q hq
  refine (hq.submits_leads o (zipIdx_submits hc).symm).bind ?_
  intro _ q hq
  refine (hq.begins hget).bind ?_
  rintro _ q ⟨submit, hq⟩
  refine (hq.steps_leads o hget hs ht hfinal).imp ?_
  rintro _ q ⟨pos, hq, hrest⟩
  exact ⟨pos, submit, final, hq, hrest⟩

theorem upTo_append (o : Options) (c : Capture) (before : List Submit) (s : Submit) (t : List Step)
    (x : Step) : upTo o c before s (t ++ [x]) =
      upTo o c before s t >>= fun _ => step o c.memory before.length x := by
  have hstep : (step o c.memory before.length x >>= fun _ => pure ()) =
      step o c.memory before.length x := bind_pure _
  simp only [upTo, List.forM_eq_forM, List.forM_append, List.forM_cons, List.forM_nil, bind_assoc,
    hstep]

/-- The last step of a build that has come to some moment. -/
theorem upTo_last {o : Options} {x : Step} {q : Pass} (hc : c.submits = before ++ s :: after)
    (hs : s.isWalked) (ht : Walk.steps c.memory before.length s.ibs = t ++ x :: rest)
    (hq : (upTo o c before s (t ++ [x])).run {} = .ok () q) :
    ∃ p pos submit, (upTo o c before s t).run {} = .ok () p ∧
      p.During c before.zipIdx s before.length t pos submit ∧
      p.Turns o c.memory before.length submit x q := by
  have hget : c.submits[before.length]? = some s := by rw [hc]; simp
  have hrun : upTo o c before s (t ++ [x]) {} = .ok () q := hq
  rw [upTo_append] at hrun
  obtain ⟨_, p, hp, hx⟩ := exists_of_bind_eq_ok hrun
  obtain ⟨pos, submit, final, hduring, hpath⟩ := (upTo_leads o hc hs ht).of_ok hp
  obtain ⟨pos', move, -⟩ := hpath.head
  obtain ⟨-, hturns⟩ := (hduring.step_leads o hget hs ht move).of_ok hx
  exact ⟨p, pos, submit, hp, hduring, hturns⟩

theorem Started.grouped {engines : List Engine} (h : p.Started engines) : p.Grouped := by
  have hdraw : p.drawIbs = [] := h.remembers Pass.drawIbs (fun _ => rfl) fun _ _ _ _ => rfl
  have hconstant : p.constantIbs = [] :=
    h.remembers Pass.constantIbs (fun _ => rfl) fun _ _ _ _ => rfl
  exact ⟨hdraw ▸ .nil, hconstant ▸ .nil⟩

theorem Reached.grouped (h : p.Reached) : p.Grouped :=
  h.induct Started.grouped fun _ hc => hc.grouped

end Pass

theorem exists_of_mem_forall₂ {α β : Type} {R : α → β → Prop} {a : α} {l : List α} {l' : List β}
    (h : List.Forall₂ R l l') (ha : a ∈ l) : ∃ b ∈ l', R a b := by
  induction h with
  | nil => cases ha
  | cons hab _ ih =>
    rcases List.mem_cons.mp ha with rfl | ha
    · exact ⟨_, List.mem_cons_self, hab⟩
    · obtain ⟨b, hb, hab⟩ := ih ha
      exact ⟨b, List.mem_cons_of_mem _ hb, hab⟩

namespace Hierarchy

/-- The children that a node shares in a view. -/
def shared (h : Hierarchy) (v : View) (n : Nat) : List Nat := ((h.forest v).shared n).toList

/-- The views that list packets keep what is shared in the pass. -/
theorem shared_eq {h : Hierarchy} {q : Pass}
    (hbakes : ∀ v, (h.forest v).Bakes (q.allEdges.get v)) {v : View} (hv : v ∈ View.withPackets) :
    h.shared v = q.shared v := by
  funext n
  rw [shared, (hbakes v).shared, Pass.allEdges_get hv, Pass.shared]

-- An action without variables would be run when a statement about it is unified with another.
attribute [local irreducible] Pass.build

/-- A build that ends well has come to each of its moments. -/
theorem exists_upTo {o : Options} {c : Capture} {h : Hierarchy} (hb : ofCapture o c = .ok h)
    {before after : List Submit} {s : Submit} {t rest : List Step}
    (hc : c.submits = before ++ s :: after) (hs : s.isWalked)
    (ht : Walk.steps c.memory before.length s.ibs = t ++ rest) :
    ∃ q, (Pass.upTo o c before s t).run {} = .ok () q := by
  obtain ⟨_, hrun⟩ := exists_build hb
  obtain ⟨next, hnext⟩ := Pass.build_eq_upTo o hc hs ht
  rw [hnext] at hrun
  obtain ⟨_, q, hq, -⟩ := exists_of_bind_eq_ok hrun
  exact ⟨q, hq⟩

/-- At every moment of the walk of a submit the nodes on the stack represent the open buffers, the
innermost on top, and a packet is executed in the buffer on top. With the kinds of their nodes these
buffers make a flat stack, and each step does to them what it does to such a stack. No buffer is on
a stack when the listed buffers that were entered have ended. In the end the submits list their
packets in order, and each packet is filed under one buffer, in whose range it lies. -/
theorem ofCapture_buffers (o : Options) (c : Capture) :
    (∀ before s after t rest, c.submits = before ++ s :: after → s.isWalked →
      Walk.steps c.memory before.length s.ibs = t ++ rest →
      (∃ next, Pass.build o c = Pass.upTo o c before s t >>= fun _ => next) ∧
      ∀ p, (Pass.upTo o c before s t).run {} = .ok () p → ∃ pos submit,
        Walk.Path c.memory before.length s.ibs {} t pos ∧ p.submit = some submit ∧
        p.nodes[submit]? = some (Pass.submitNode before.length s) ∧
        List.Forall₂ (p.nodes.Represents submit) p.ibs.nodes pos.visits ∧
        p.ibs.Flat p.nodes.ibKind? ∧
        (Walk.numOpen t = 0 → p.drawIbs = [] ∧ p.constantIbs = []) ∧
        (∀ x rest' q, rest = x :: rest' →
          (Pass.upTo o c before s (t ++ [x])).run {} = .ok () q → p.StepsFlat o submit q x) ∧
        ∀ ibIndex va kind header rest', rest = .packet ibIndex va kind header :: rest' →
          ∃ visit below n, pos.visits = visit :: below ∧ p.ibs.top? = some n ∧
            p.nodes.Represents submit n visit ∧ visit.ibIndex = ibIndex ∧
            visit.ib.va ≤ va ∧ va < visit.ib.stop) ∧
    ∀ h, ofCapture o c = .ok h →
      List.Forall₂ (fun n (s, index) =>
          Lists c h.nodes h.shared s index (c.stepsOf s index) n)
        (h.nodes.ofKind .submit) c.submits.zipIdx ∧
      ∀ k, h.nodes.kind? k = some .packet → ∃ x n submit, Filed c h.nodes h.shared k x n ∧
        h.nodes.kind? submit = some .submit ∧ ∀ v ∈ View.withPackets, k ∈ h.shared v submit := by
  refine ⟨fun before s after t rest hc hs ht => ⟨Pass.build_eq_upTo o hc hs ht, fun p hp => ?_⟩,
    fun h hb => ?_⟩
  · obtain ⟨pos, submit, final, hq, hrest⟩ := (Pass.upTo_leads o hc hs ht).of_ok hp
    obtain ⟨earlier, hlast⟩ := hq.last
    have hgrouped := hq.reached.grouped
    refine ⟨pos, submit, hq.path, hq.follows.isOpen, (hq.filing.last hlast).2.node,
      hq.follows.stack, hgrouped.ibs.flat, fun hnum => hq.follows.stacks_eq_nil ?_,
      fun x rest' q heq hrun => ?_, fun ibIndex va kind header rest' heq => ?_⟩
    · rw [hq.path.numOpen_eq] at hnum
      exact List.eq_nil_of_length_eq_zero hnum
    · obtain ⟨p', _, submit', hp', hq', hturns⟩ := Pass.upTo_last hc hs (heq ▸ ht) hrun
      -- There is one pass at each moment.
      cases hp.symm.trans hp'
      cases hq.follows.isOpen.symm.trans hq'.follows.isOpen
      exact hturns.stepsFlat hq.follows.sound hq.follows.isOpen hgrouped
    · subst heq
      obtain ⟨_, move, -⟩ := hrest.head
      cases move with
      | @packet r rs _ hr _ _ _ _ hlt _ =>
        obtain ⟨st, ss, hibs, htop, -⟩ := hq.follows.top? hr
        exact ⟨r.latest, r.earlier ++ rs.flatMap Walk.OpenRun.visits, st.top,
          by simp [Walk.Position.visits, hr, Walk.OpenRun.visits], by rw [hibs]; rfl, htop, rfl,
          hq.path.coherent.le_next r (by simp [hr]), hlt⟩
  · obtain ⟨q, hq, hnodes, hbakes⟩ := (ofCapture_spec o c).1 h hb
    have hshared : ∀ v ∈ View.withPackets, h.shared v = q.shared v := fun _ => shared_eq hbakes
    have hlists : List.Forall₂ (fun n (s, index) =>
          Lists c h.nodes h.shared s index (c.stepsOf s index) n)
        (h.nodes.ofKind .submit) c.submits.zipIdx := by
      rw [hnodes]
      refine (List.forall₂_map_right_iff.mp hq.filing.submits).imp fun n e he => ?_
      exact he.congr hshared
    refine ⟨hlists, fun k hk => ?_⟩
    rw [hnodes] at hk
    obtain ⟨submit, hsubmit, hmem⟩ := hq.filing.packets k hk
    rw [← hnodes] at hsubmit
    obtain ⟨e, -, he⟩ := exists_of_mem_forall₂ hlists (Nodes.mem_ofKind.mpr hsubmit)
    obtain ⟨ks, xs, hks, hfiled, -⟩ := he.packets
    have hk' : k ∈ ks := by
      rw [← hks .engine (by decide), hshared .engine (by decide)]
      exact hmem .engine (by decide)
    obtain ⟨x, -, -, n, hx⟩ := exists_of_mem_forall₂ hfiled hk'
    exact ⟨x, n, submit, hx, hsubmit, fun v hv => by rw [hshared v hv]; exact hmem v hv⟩

/-- A buffer that chains into another, which calls a third that chains as well: at the end of the
called run, and at the packet behind the call. -/
theorem ofCapture_buffers_chains :
    let nop := Header.ofOpcode Opcode.nop 0
    let s : Submit := { engine := .universal, queue := .universal, ibs := [{ va := 0, size := 4 }] }
    let c : Capture := {
      submits := [s]
      memory := .flat (Words.toBytes #[Header.ofOpcode Opcode.chain 3, 16, 0, 5,
        Header.ofOpcode Opcode.callPfe 3, 36, 0, 4, nop,
        Header.ofOpcode Opcode.chain 3, 52, 0, 1, nop]) }
    let t := (Walk.steps c.memory 0 s.ibs).take 8
    let x : Step := .leave 0 { va := 52, size := 1 }
    ∃ p q h, (Pass.upTo {} c [] s t).run {} = .ok () p ∧
      (Pass.upTo {} c [] s (t ++ [x])).run {} = .ok () q ∧ ofCapture {} c = .ok h ∧
      p.ibs.nodes = [22, 17, 12, 7] ∧
      (∃ pos submit, Walk.Path c.memory 0 s.ibs {} t pos ∧
        List.Forall₂ (p.nodes.Represents submit) [22, 17, 12, 7] pos.visits) ∧
      FlatStack.leave p.nodes.ibKind? [22, 17, 12, 7] = [12, 7] ∧ q.ibs.nodes = [12, 7] ∧
      (∃ submit visit, q.nodes.Represents submit 12 visit ∧ visit.ib.va ≤ 32 ∧
        32 < visit.ib.stop) ∧
      (∃ e, Filed c h.nodes h.shared 23 e 22) ∧ ∃ e, Filed c h.nodes h.shared 24 e 12 := by
  intro nop s c t x
  have hrun : Succeeds (Pass.upTo {} c [] s t) {} fun _ p => p.ibs.nodes = [22, 17, 12, 7] ∧
      FlatStack.leave p.nodes.ibKind? [22, 17, 12, 7] = [12, 7] := by decide +kernel
  have hbuild : ∃ h, ofCapture {} c = .ok h ∧
      (h.nodes.kind? 23 = some .packet ∧ h.nodes.kind? 22 = some .ib ∧ 23 ∈ h.shared .engine 22) ∧
      h.nodes.kind? 24 = some .packet ∧ h.nodes.kind? 12 = some .ib ∧
      24 ∈ h.shared .engine 12 := by decide +kernel
  have hsteps : Walk.steps c.memory 0 s.ibs = t ++ x :: [.packet 0 32 .type7 nop,
      .leave 0 { va := 16, size := 5 }] := by decide +kernel
  have hsteps' : Walk.steps c.memory 0 s.ibs = (t ++ [x]) ++ [.packet 0 32 .type7 nop,
      .leave 0 { va := 16, size := 5 }] := by rw [hsteps, List.append_assoc]; rfl
  obtain ⟨_, p, hp, hnodes, hleave⟩ := hrun.exists_ok
  obtain ⟨h, hb, ⟨hk, hbuffer, hmem⟩, hk', hbuffer', hmem'⟩ := hbuild
  obtain ⟨hmoments, hend⟩ := ofCapture_buffers {} c
  obtain ⟨pos, submit, hpath, -, -, hstack, -, -, hnext, -⟩ := (hmoments [] s [] t _ rfl rfl
    hsteps).2 p hp
  obtain ⟨q, hq⟩ : ∃ q, (Pass.upTo {} c [] s (t ++ [x])).run {} = .ok () q :=
    exists_upTo hb (show c.submits = [] ++ s :: [] from rfl) rfl hsteps'
  have hleft : q.ibs.nodes = [12, 7] := by
    have hstep : q.ibs.nodes = FlatStack.leave p.nodes.ibKind? p.ibs.nodes := hnext x _ q rfl hq
    rw [hstep, hnodes, hleave]
  obtain ⟨_, submit', -, -, -, -, hflat, -, -, hpacket⟩ :=
    (hmoments [] s [] (t ++ [x]) _ rfl rfl hsteps').2 q hq
  obtain ⟨visit, _, n, -, htop, hrep, -, hle, hlt⟩ := hpacket 0 32 .type7 nop _ rfl
  rw [hflat.top, hleft] at htop
  cases htop
  have hfiled {k b : Nat} (hk : h.nodes.kind? k = some .packet) (hb' : h.nodes.kind? b = some .ib)
      (hmem : k ∈ h.shared .engine b) : ∃ e, Filed c h.nodes h.shared k e b := by
    obtain ⟨e, n, -, he, -⟩ := (hend h hb).2 k hk
    exact ⟨e, (he.shared .engine (by decide) b hb').mp hmem ▸ he⟩
  rw [hnodes] at hstack
  exact ⟨p, q, h, hp, hq, hb, hnodes, ⟨pos, submit, hpath, hstack⟩, hleave, hleft,
    ⟨submit', visit, hrep, hle, hlt⟩, hfiled hk hbuffer hmem, hfiled hk' hbuffer' hmem'⟩

end Hierarchy

end CaptureForest
