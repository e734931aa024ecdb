import CaptureForest.Hierarchy.Dump
import CaptureForest.Proofs.Hierarchy.Walks
import CaptureForest.Proofs.View.Ascent

/-! # Dumps of views

A dump keeps its nodes on a stack, each with a level that it counts itself. The walk in preorder has
no stack, and the depth of a node is found by a climb. The three agree: a dump has the lines of the
nodes below the root in preorder, indented by the depth (`Hierarchy.dump_preorder`). -/

namespace CaptureForest

namespace Forest

variable {f : Forest} {n : Nat} {nodes rest : List Nat}

/-- The nodes below the root, each with the level that fits to its depth. -/
def levelled (f : Forest) (nodes : List Nat) : List (Nat × Nat) :=
  nodes.map fun n => (n, f.depth n - 1)

theorem levelled_children (hf : f.Rooted) (hacyclic : f.Acyclic) :
    f.levelled (f.children n).toList = (f.children n).toList.map fun c => (c, f.depth n) := by
  refine List.map_congr_left fun c hc => ?_
  rw [hacyclic.depth_child (hf.parent?_of_mem hc), Nat.add_sub_cancel]

/-- The children of a node are one level deeper. -/
theorem levelled_children_append (hf : f.Rooted) (hacyclic : f.Acyclic) (hn : 0 < f.depth n) :
    f.levelled ((f.children n).toList ++ rest) =
      ((f.children n).toList.map fun c => (c, f.depth n - 1 + 1)) ++ f.levelled rest := by
  rw [Nat.sub_add_cancel hn, ← levelled_children hf hacyclic]
  exact List.map_append

theorem Rooted.over_of_mem_preorder (hf : f.Rooted) (hlt : 0 < f.size)
    (hn : n ∈ f.preorder.toList) : f.Over rootNode n := by
  obtain ⟨m, hm, hmn⟩ := (hf.preorder hlt).1.depthFirst.exists_over hn
  rwa [List.mem_singleton.mp hm] at hmn

theorem Rooted.length_preorder_le (hf : f.Rooted) (hlt : 0 < f.size) :
    f.preorder.toList.length ≤ f.size := by
  refine length_le_of_nodup (hf.preorder hlt).2 fun n hn => ?_
  rcases Relation.ReflTransGen.cases_tail (hf.over_of_mem_preorder hlt hn) with heq | ⟨m, -, hm⟩
  · rwa [heq]
  · exact hf.child_lt hm

end Forest

namespace Hierarchy

variable {h : Hierarchy} {f : Forest} {withShared : Bool} {stack : Array (Nat × Nat)}
  {text result result' : String} {n level : Nat} {nodes l : List Nat}

/-- A line that is indented by so many blanks. -/
def line (indent : Nat) (text : String) : String :=
  String.ofList (List.replicate indent ' ') ++ text ++ "\n"

/-- The lines of a node: its description, indented by two blanks for each owner but the root, and if
wanted those of its shared children, indented by two more and marked. -/
def entry (h : Hierarchy) (f : Forest) (withShared : Bool) (n : Nat) : String :=
  let indent := 2 * (f.depth n - 1)
  line indent (h.description n) ++
    if withShared then
      String.join ((f.shared n).toList.map fun s => line (indent + 2) ("* " ++ h.description s))
    else ""

/-! ## Lines -/

theorem blanks_eq (n : Nat) : blanks n = String.ofList (List.replicate n ' ') := by
  rw [blanks, String.pushn]
  induction n with
  | zero => rfl
  | succ n ih =>
    rw [Nat.repeat, ih, List.replicate_succ', ← String.toList_inj]
    simp

theorem foldl_append_eq_join {α : Type} (g : α → String) (l : List α) (text : String) :
    l.foldl (fun text a => text ++ g a) text = text ++ String.join (l.map g) := by
  induction l generalizing text with
  | nil => simp
  | cons a l ih => rw [List.foldl_cons, ih, List.map_cons, String.join_cons, String.append_assoc]

/-- What the loop adds for a node on the level that fits to its depth. -/
theorem addLines_eq (hlevel : f.depth n = level + 1) :
    h.addLines f withShared text level n = text ++ h.entry f withShared n := by
  have hindent : 2 * (f.depth n - 1) = 2 * level := by omega
  have hnode : h.nodeLine level n = line (2 * level) (h.description n) := by
    rw [nodeLine, line, blanks_eq]
  have hshared : h.sharedLine level = fun s => line (2 * level + 2) ("* " ++ h.description s) := by
    funext s
    simp only [sharedLine, line, blanks_eq, String.append_assoc]
  rw [addLines, entry, hindent, hnode]
  cases withShared with
  | false => simp
  | true =>
    simp only [if_true]
    rw [← Array.foldl_toList, foldl_append_eq_join, hshared, String.append_assoc]

/-! ## Loops -/

theorem Dumps.unique (hd : h.Dumps f withShared stack text result)
    (hd' : h.Dumps f withShared stack text result') : result = result' := by
  induction hd with
  | done =>
    cases hd' with
    | done => rfl
    | node hback => cases hback
  | node hback _ ih =>
    cases hd' with
    | done => cases hback
    | node hback' hd' =>
      cases hback.symm.trans hback'
      exact ih hd'

/-- A turn of the loop leaves each node on the level that fits to its depth. -/
theorem Dumps.visit {rest : List Nat} (hf : f.Rooted) (hacyclic : f.Acyclic) (hn : 0 < f.depth n)
    (hd : h.Dumps f withShared (f.levelled ((f.children n).toList ++ rest)).reverse.toArray
      (h.addLines f withShared text (f.depth n - 1) n) result) :
    h.Dumps f withShared (f.levelled (n :: rest)).reverse.toArray text result := by
  have hback : (f.levelled (n :: rest)).reverse.toArray.back? = some (n, f.depth n - 1) := by
    simp [Forest.levelled]
  have hpush : (f.levelled (n :: rest)).reverse.toArray.pop ++
      stacked (f.children n) (f.depth n - 1 + 1) =
      (f.levelled ((f.children n).toList ++ rest)).reverse.toArray := by
    rw [Forest.levelled_children_append hf hacyclic hn]
    apply Array.toList_inj.mp
    simp [Forest.levelled, stacked]
  exact .node hback (hpush ▸ hd)

theorem dumpFrom_visit {rest : List Nat} (hf : f.Rooted) (hacyclic : f.Acyclic)
    (hn : 0 < f.depth n) (fuel : Nat) :
    h.dumpFrom f withShared (fuel + 1) (f.levelled (n :: rest)) text =
      h.dumpFrom f withShared fuel (f.levelled ((f.children n).toList ++ rest))
        (h.addLines f withShared text (f.depth n - 1) n) := by
  rw [Forest.levelled_children_append hf hacyclic hn]
  rfl

/-- The loop writes the lines of the nodes that a walk with a stack visits. So does a loop with a
bound, if it may go on for as long. -/
theorem dumps_of_visits (hv : f.Visits nodes l) (hf : f.Rooted) (hacyclic : f.Acyclic)
    (hpos : ∀ n ∈ nodes, 0 < f.depth n) (text : String) :
    h.Dumps f withShared (f.levelled nodes).reverse.toArray text
        (text ++ String.join (l.map (h.entry f withShared))) ∧
      ∀ fuel, l.length ≤ fuel → h.dumpFrom f withShared fuel (f.levelled nodes) text =
        text ++ String.join (l.map (h.entry f withShared)) := by
  -- On the stack are the nodes that the walk has still to visit; their levels follow from them.
  induction hv generalizing text with
  | done =>
    refine ⟨by simpa [Forest.levelled] using Dumps.done, fun fuel _ => ?_⟩
    cases fuel <;> simp [dumpFrom, Forest.levelled]
  | @visit n rest l _ ih =>
    have hn : 0 < f.depth n := hpos n List.mem_cons_self
    have hpos' : ∀ c ∈ (f.children n).toList ++ rest, 0 < f.depth c := by
      intro c hc
      rcases List.mem_append.mp hc with hc | hc
      · exact hacyclic.depth_pos (hf.parent?_of_mem hc)
      · exact hpos c (List.mem_cons_of_mem n hc)
    have htext : text ++ String.join ((n :: l).map (h.entry f withShared)) =
        h.addLines f withShared text (f.depth n - 1) n ++
          String.join (l.map (h.entry f withShared)) := by
      rw [addLines_eq (Nat.sub_add_cancel hn).symm, List.map_cons, String.join_cons,
        String.append_assoc]
    rw [htext]
    obtain ⟨hdumps, hbounded⟩ := ih hpos' (h.addLines f withShared text (f.depth n - 1) n)
    refine ⟨hdumps.visit hf hacyclic hn, fun fuel hfuel => ?_⟩
    obtain ⟨fuel, rfl⟩ := Nat.exists_eq_add_of_le' (Nat.one_le_of_lt hfuel)
    rw [dumpFrom_visit hf hacyclic hn]
    exact hbounded fuel (Nat.le_of_succ_le_succ hfuel)

/-- The loop starts with the children of the root, so it writes what is visited behind the root. -/
theorem dumps_preorder (hf : f.Rooted) (hacyclic : f.Acyclic) (hlt : 0 < f.size) :
    h.Dumps f withShared (stacked (f.children rootNode) 0) ""
        (String.join ((f.preorder.toList.drop 1).map (h.entry f withShared))) ∧
      ∀ fuel, f.size ≤ fuel →
        h.dumpFrom f withShared fuel ((f.children rootNode).toList.map fun c => (c, 0)) "" =
          String.join ((f.preorder.toList.drop 1).map (h.entry f withShared)) := by
  obtain ⟨l, hpreorder, hvisits⟩ := (hf.preorder hlt).1.children
  have hroot : f.depth rootNode = 0 :=
    (Forest.Above.top (by rw [Forest.parent?, hf.root]; rfl)).depth_eq
  have hlevels : f.levelled (f.children rootNode).toList =
      (f.children rootNode).toList.map fun c => (c, 0) := by
    rw [Forest.levelled_children hf hacyclic, hroot]
  have hstack : (f.levelled (f.children rootNode).toList).reverse.toArray =
      stacked (f.children rootNode) 0 := by
    apply Array.toList_inj.mp
    simp [hlevels, stacked]
  obtain ⟨hdumps, hbounded⟩ := dumps_of_visits (h := h) hvisits hf hacyclic
    (fun _ hc => hacyclic.depth_pos (hf.parent?_of_mem hc)) ""
  have hle := hf.length_preorder_le hlt
  rw [hpreorder] at hle ⊢
  rw [String.empty_append, hstack] at hdumps
  rw [String.empty_append, hlevels] at hbounded
  exact ⟨hdumps, fun fuel hfuel => hbounded fuel (Nat.le_of_succ_le (hle.trans hfuel))⟩

/-! ## Views of builds -/

theorem IsForest.acyclic_forest {v : View} (hf : h.IsForest v) : (h.forest v).Acyclic := by
  intro n hn
  have hswap : (h.forest v).Owned = Function.swap (h.Owns v) :=
    funext₂ fun _ _ => propext hf.parent
  rw [hswap, Relation.transGen_swap] at hn
  exact hf.acyclic n hn

/-- The dump of a view has the lines of the nodes below the root, in preorder. Each node is indented
by its depth, which is the number of its ancestors; the last ancestor is the root. The loops that
write the dump, count the depth and collect the ancestors have no bound, but all come to an end. -/
theorem dump_preorder (hb : h.IsBuilt) (v : View) :
    let f := h.forest v
    (∃ s : PackedForest, s.Mirrors f ∧ s.Yields s.first? f.preorder.toList) ∧
      f.preorder.toList.head? = some rootNode ∧
      (∀ withShared, h.dump v withShared =
          String.join ((f.preorder.toList.drop 1).map (h.entry f withShared)) ∧
        ∀ text, h.Dumps f withShared (stacked (f.children rootNode) 0) "" text ↔
          text = h.dump v withShared) ∧
      (∀ n, (∀ owners, f.Ascends Array.push n #[] owners ↔ owners = f.ancestors n) ∧
        (∀ d, f.Ascends Forest.countOwner n 0 d ↔ d = f.depth n) ∧
        f.depth n = (f.ancestors n).size) ∧
      ∀ n ∈ f.preorder.toList.drop 1, (f.ancestors n).back? = some rootNode := by
  intro f
  obtain ⟨c, hfinishes⟩ := hb.finishes
  have hforest := isForest_of_finishes hfinishes v
  have hacyclic : f.Acyclic := hforest.acyclic_forest
  obtain ⟨g, s, -, -, hstores, hf, hpos⟩ := packed_of_finishes hfinishes v
  have hwalks := hstores.walks hf hpos
  have hlt : 0 < f.size := hstores.answers.size ▸ hpos
  obtain ⟨hvisits, -, hnodup⟩ := hf.walk hlt
  refine ⟨⟨s, hstores.mirrors, hwalks.yields.mpr rfl⟩, hwalks.first, fun withShared => ?_,
    hacyclic.ancestors_depth, fun n hn => ?_⟩
  · obtain ⟨hdumps, hbounded⟩ := dumps_preorder hf hacyclic hlt
    have hdump : h.dump v withShared =
        String.join ((f.preorder.toList.drop 1).map (h.entry f withShared)) :=
      hbounded h.numNodes (Nat.le_of_eq hforest.size)
    rw [hdump]
    exact ⟨rfl, fun text => ⟨fun h' => h'.unique hdumps, fun heq => heq ▸ hdumps⟩⟩
  · obtain ⟨l, hpreorder, -⟩ := hvisits.children
    refine hf.back?_ancestors (hf.over_of_mem_preorder hlt (List.mem_of_mem_drop hn)) fun heq => ?_
    rw [hpreorder] at hn hnodup
    exact (List.nodup_cons.mp hnodup).1 (heq ▸ hn)

/-- A register write and a draw. In the view of all events the draw shares both packets. -/
theorem dump_preorder_draw :
    let words : Array UInt32 :=
      #[Header.ofRegisters 0x8871 1, 5, Header.ofOpcode Opcode.drawIndexOffset 1, 0]
    ∃ h, ofStream {} .universal .universal words = .ok h ∧
      let f := h.forest .allEvent
      h.dump .allEvent true = h.entry f true 2 ++ h.entry f true 14 ∧
      h.entry f true 14 = "  DrawIndexOffset\n" ++ "    * TYPE4 REGWRITE 0x48887101\n" ++
        "    * CP_DRAW_INDX_OFFSET 0x70380001\n" ∧
      f.depth 14 = (f.ancestors 14).size ∧ f.ancestors 14 = #[2, 0] ∧
      (f.ancestors 14).back? = some rootNode := by
  intro words
  have hc : ∃ h, ofStream {} .universal .universal words = .ok h ∧
      (h.forest .allEvent).preorder.toList = [0, 2, 14] ∧
      (h.forest .allEvent).ancestors 14 = #[2, 0] ∧
      h.entry (h.forest .allEvent) true 14 = "  DrawIndexOffset\n" ++
        "    * TYPE4 REGWRITE 0x48887101\n" ++ "    * CP_DRAW_INDX_OFFSET 0x70380001\n" := by
    decide +kernel
  obtain ⟨h, hb, hpreorder, hancestors, hentry⟩ := hc
  obtain ⟨-, -, hdump, hclimbs, hlast⟩ :=
    dump_preorder (.inr ⟨{}, .universal, .universal, words, hb⟩) .allEvent
  have hlines := (hdump true).1
  rw [hpreorder] at hlines hlast
  exact ⟨h, hb, hlines.trans (by simp), hentry, (hclimbs 14).2.2, hancestors, hlast 14 (by decide)⟩

end Hierarchy

end CaptureForest
