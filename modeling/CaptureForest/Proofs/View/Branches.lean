import CaptureForest.Proofs.View.EdgeLists
import Mathlib.Data.List.Basic
import Mathlib.Logic.Relation

/-! # Branches

Nodes in a tree are ordered by the branches that they are on (`Ahead`). A tree grows by new nodes at
the ends of lists of children, and a new node may take leaves from where they are (`Regrown`,
`Grafted`). That leaves old nodes in order. New nodes come last, up to some nodes that are put
elsewhere: what is below a node of `Z` may be too far behind, and what is below a node of `Y` too far
ahead (`Parted`). -/

namespace CaptureForest

variable {own own' : Nat → List Nat} {Z Y : Nat → Prop} {moved : List Nat}
  {a b c e m n w x y z size : Nat}

/-- The node `b` is below `a`, or the same. -/
def Over (own : Nat → List Nat) : Nat → Nat → Prop := Relation.ReflTransGen fun a b => b ∈ own a

/-- The node `a` is on an earlier branch than `b`. -/
def Ahead (own : Nat → List Nat) (a b : Nat) : Prop :=
  ∃ n x y, [x, y].Sublist (own n) ∧ Over own x a ∧ Over own y b

/-- The node `a` is below a node of `Z` that `b` is not below, or `b` is below a node of `Y` that `a`
is not below. -/
def Parted (own : Nat → List Nat) (Z Y : Nat → Prop) (a b : Nat) : Prop :=
  (∃ z, Z z ∧ Over own z a ∧ ¬Over own z b) ∨ ∃ y, Y y ∧ Over own y b ∧ ¬Over own y a

/-- The node `e` is below `m` or on an earlier branch, or they are parted. -/
def Covers (own : Nat → List Nat) (Z Y : Nat → Prop) (e m : Nat) : Prop :=
  Over own m e ∨ Ahead own e m ∨ Parted own Z Y e m

/-- The node `a` is below `b` or on an earlier branch, or it is below a node of `Z` that `b` is not
below. -/
def Inner (own : Nat → List Nat) (Z : Nat → Prop) (a b : Nat) : Prop :=
  Over own b a ∨ Ahead own a b ∨ ∃ z, Z z ∧ Over own z a ∧ ¬Over own z b

theorem Over.refl : Over own a a := Relation.ReflTransGen.refl

theorem Over.trans (h : Over own a b) (h' : Over own b c) : Over own a c :=
  Relation.ReflTransGen.trans h h'

theorem Over.single (h : b ∈ own a) : Over own a b := Relation.ReflTransGen.single h

/-- A node is over itself and what its children are over. -/
theorem Over.cases_head (h : Over own a b) : a = b ∨ ∃ c ∈ own a, Over own c b :=
  Relation.ReflTransGen.cases_head h

theorem Over.eq_of_leaf (h : Over own a b) (hleaf : own a = []) : a = b := by
  refine h.cases_head.resolve_right ?_
  rintro ⟨c, hc, -⟩
  rw [hleaf] at hc
  cases hc

/-- Of two nodes over the same one, one is over the other. -/
theorem Over.comparable (honce : ∀ {a b c}, c ∈ own a → c ∈ own b → a = b) (ha : Over own a c)
    (hb : Over own b c) : Over own a b ∨ Over own b a := by
  induction ha with
  | refl => exact .inr hb
  | @tail m c _ hc ih =>
    rcases Relation.ReflTransGen.cases_tail hb with rfl | ⟨m', hbm, hc'⟩
    · exact .inl (.tail ‹_› hc)
    · exact ih (honce hc hc' ▸ hbm)

theorem Ahead.over (h : Ahead own a b) (hb : Over own b c) : Ahead own a c := by
  obtain ⟨n, x, y, hsub, ha, hb'⟩ := h
  exact ⟨n, x, y, hsub, ha, hb'.trans hb⟩

theorem Inner.over (h : Inner own Z a b) (hc : Over own a c) : Inner own Z c b := by
  rcases h with hover | ⟨n, x, y, hxy, ha, hb⟩ | ⟨z, hz, ha, hb⟩
  · exact .inl (hover.trans hc)
  · exact .inr (.inl ⟨n, x, y, hxy, ha.trans hc, hb⟩)
  · exact .inr (.inr ⟨z, hz, ha.trans hc, hb⟩)

/-- What is inside a node is covered by it. -/
theorem Inner.covers (h : Inner own Z a b) (hc : Over own a c) : Covers own Z Y c b :=
  (h.over hc).imp_right (Or.imp_right .inl)

/-! ## The last branch -/

/-- The node `b` is the last child of `a`, if the leaves `moved` do not count. -/
def Last (own : Nat → List Nat) (moved : List Nat) (a b : Nat) : Prop :=
  ((own a).filter (· ∉ moved)).getLast? = some b

theorem Last.mem (h : Last own moved a b) : b ∈ own a :=
  List.mem_of_mem_filter (List.mem_of_getLast? h)

theorem Last.over (h : Relation.ReflTransGen (Last own moved) a b) : Over own a b :=
  Relation.ReflTransGen.mono (fun _ _ hlast => hlast.mem) _ _ h

/-- A leaf below the begin of the last branch is below its end or on an earlier branch. -/
theorem Last.covers (h : Relation.ReflTransGen (Last own moved) m w)
    (hmoved : ∀ x ∈ moved, own x = []) (he : e ∉ moved) (hleaf : own e = [])
    (hover : Over own m e) : Over own w e ∨ Ahead own e w := by
  induction h using Relation.ReflTransGen.head_induction_on with
  | refl => exact .inl hover
  | @head m y hlast hpath ih =>
    rcases hover.cases_head with rfl | ⟨x, hx, hxe⟩
    · have hy := hlast.mem
      rw [hleaf] at hy
      cases hy
    · by_cases hxy : x = y
      · exact ih (hxy ▸ hxe)
      · have hx' : x ∉ moved := fun hmem => he (hxe.eq_of_leaf (hmoved x hmem) ▸ hmem)
        obtain ⟨front, hfront⟩ := List.getLast?_eq_some_iff.mp hlast
        have hmem : x ∈ front := by
          have : x ∈ (own m).filter (· ∉ moved) := List.mem_filter.mpr ⟨hx, by simpa using hx'⟩
          rw [hfront, List.mem_append, List.mem_singleton] at this
          exact this.resolve_right hxy
        have hsub : [x, y].Sublist ((own m).filter (· ∉ moved)) := by
          rw [hfront]
          exact List.cons_sublist_iff.mpr ⟨front, [y], rfl, hmem, .refl _⟩
        exact .inr ⟨m, x, y, hsub.trans List.filter_sublist, hxe, Last.over hpath⟩

/-- What covers the begin of the last branch covers its end. -/
theorem Covers.last (h : Covers own Z Y e m) (hpath : Relation.ReflTransGen (Last own moved) m w)
    (honce : ∀ {a b c}, c ∈ own a → c ∈ own b → a = b) (hmoved : ∀ x ∈ moved, own x = [])
    (he : e ∉ moved) (hleaf : own e = []) : Covers own Z Y e w := by
  have hmw := Last.over hpath
  by_cases hover : Over own m e
  · exact (Last.covers hpath hmoved he hleaf hover).imp_right .inl
  · rcases h with h | h | ⟨z, hz, hze, hzm⟩ | ⟨y, hy, hym, hye⟩
    · exact absurd h hover
    · exact .inr (.inl (h.over hmw))
    · refine .inr (.inr (.inl ⟨z, hz, hze, fun hzw => hzm ?_⟩))
      refine (Over.comparable honce hzw hmw).resolve_right fun hmz => ?_
      exact hover (hmz.trans hze)
    · exact .inr (.inr (.inr ⟨y, hy, hym.trans hmw, hye⟩))

/-! ## Growth -/

/-- The tree `own'` has new nodes, numbered from `size` on, behind the children that nodes had, and the
leaves `moved` may be elsewhere. -/
structure Regrown (size : Nat) (moved : List Nat) (own own' : Nat → List Nat) : Prop where
  owned : ∀ n, ∃ l, own' n = (own n).filter (· ∉ moved) ++ l ∧ ∀ c ∈ l, size ≤ c ∨ c ∈ moved
  inside : ∀ {n c}, c ∈ own n → n < size ∧ c < size
  leaf : ∀ x ∈ moved, own x = []

namespace Regrown

theorem mem (h : Regrown size moved own own') (hlt : c < size) (hc : c ∉ moved) :
    c ∈ own' n ↔ c ∈ own n := by
  obtain ⟨l, hl, hnew⟩ := h.owned n
  rw [hl, List.mem_append, List.mem_filter]
  constructor
  · rintro (hmem | hmem)
    · exact hmem.1
    · exact ((hnew c hmem).elim (fun hle => absurd hlt (Nat.not_lt.mpr hle)) hc.elim)
  · exact fun hmem => .inl ⟨hmem, by simpa using hc⟩

theorem owner_not_mem (h : Regrown size moved own own') (hc : c ∈ own n) : n ∉ moved := fun hn => by
  rw [h.leaf n hn] at hc
  cases hc

/-- What was over a node is old. -/
theorem lt (h : Regrown size moved own own') (hz : Over own z a) (ha : a < size) : z < size := by
  rcases hz.cases_head with rfl | ⟨c, hc, -⟩
  · exact ha
  · exact (h.inside hc).1

/-- The same nodes are over an old one as before. -/
theorem over_iff (h : Regrown size moved own own') (hlt : b < size) (hb : b ∉ moved) :
    Over own' a b ↔ Over own a b := by
  constructor
  · intro hover
    induction hover with
    | refl => exact .refl
    | tail _ hc ih =>
      have hmem := (h.mem hlt hb).mp hc
      exact (ih (h.inside hmem).1 (h.owner_not_mem hmem)).trans (.single hmem)
  · intro hover
    induction hover with
    | refl => exact .refl
    | tail _ hc ih =>
      exact (ih (h.inside hc).1 (h.owner_not_mem hc)).trans (.single ((h.mem hlt hb).mpr hc))

theorem ahead (h : Regrown size moved own own') (hab : Ahead own a b) (ha : a < size)
    (ha' : a ∉ moved) (hb : b < size) (hb' : b ∉ moved) : Ahead own' a b := by
  obtain ⟨n, x, y, hsub, hxa, hyb⟩ := hab
  have hx : x ∉ moved := fun hmem => ha' (hxa.eq_of_leaf (h.leaf x hmem) ▸ hmem)
  have hy : y ∉ moved := fun hmem => hb' (hyb.eq_of_leaf (h.leaf y hmem) ▸ hmem)
  obtain ⟨l, hl, -⟩ := h.owned n
  refine ⟨n, x, y, ?_, (h.over_iff ha ha').mpr hxa, (h.over_iff hb hb').mpr hyb⟩
  rw [hl]
  have hfilter : [x, y].filter (· ∉ moved) = [x, y] := by simp [hx, hy]
  rw [← hfilter]
  exact (hsub.filter _).trans (List.sublist_append_left _ _)

theorem parted (h : Regrown size moved own own') (hab : Parted own Z Y a b) (ha : a < size)
    (ha' : a ∉ moved) (hb : b < size) (hb' : b ∉ moved) : Parted own' Z Y a b := by
  unfold Parted
  simp only [h.over_iff ha ha', h.over_iff hb hb']
  exact hab

theorem covers (h : Regrown size moved own own') (hem : Covers own Z Y e m) (he : e < size)
    (he' : e ∉ moved) (hm : m < size) (hm' : m ∉ moved) : Covers own' Z Y e m :=
  hem.imp (h.over_iff he he').mpr
    (Or.imp (h.ahead · he he' hm hm') (h.parted · he he' hm hm'))

theorem inner (h : Regrown size moved own own') (hab : Inner own Z a b) (ha : a < size)
    (ha' : a ∉ moved) (hb : b < size) (hb' : b ∉ moved) : Inner own' Z a b := by
  refine hab.imp (h.over_iff ha ha').mpr (Or.imp (h.ahead · ha ha' hb hb') ?_)
  rintro ⟨z, hz, hza, hzb⟩
  exact ⟨z, hz, (h.over_iff ha ha').mpr hza, fun hzb' => hzb ((h.over_iff hb hb').mp hzb')⟩

end Regrown

/-- The tree `own'` has one new node, the last child of `w`, which has taken the leaves `moved`. -/
structure Grafted (size w : Nat) (moved : List Nat) (own own' : Nat → List Nat) : Prop extends
    Regrown size moved own own' where
  child : ∀ {n}, size ∈ own' n ↔ n = w
  taken : own' size = moved
  last : ∃ l, own' w = l ++ [size]
  owner : w < size
  owner_not_moved : w ∉ moved
  once : ∀ {n x}, x ∈ moved → x ∈ own' n → n = size

namespace Grafted

/-- The new node is below what its owner is below. -/
theorem over_new (h : Grafted size w moved own own') :
    Over own' a size ↔ a = size ∨ Over own a w := by
  constructor
  · intro hover
    rcases Relation.ReflTransGen.cases_tail hover with heq | ⟨m, ham, hm⟩
    · exact .inl heq.symm
    · rw [h.child.mp hm] at ham
      exact .inr ((h.over_iff h.owner h.owner_not_moved).mp ham)
  · rintro (rfl | hover)
    · exact .refl
    · exact ((h.over_iff h.owner h.owner_not_moved).mpr hover).trans (.single (h.child.mpr rfl))

/-- What is taken is below the new node. -/
theorem over_moved (h : Grafted size w moved own own') (hx : x ∈ moved) :
    Over own' a x ↔ a = x ∨ Over own' a size := by
  constructor
  · intro hover
    rcases Relation.ReflTransGen.cases_tail hover with heq | ⟨m, ham, hm⟩
    · exact .inl heq.symm
    · rw [h.once hx hm] at ham
      exact .inr ham
  · rintro (rfl | hover)
    · exact .refl
    · refine hover.trans (.single ?_)
      rwa [h.taken]

/-- What was below the owner is on an earlier branch than the new node. -/
theorem ahead_new (h : Grafted size w moved own own') (hover : Over own w a) (hne : a ≠ w)
    (ha : a < size) (ha' : a ∉ moved) : Ahead own' a size := by
  obtain ⟨c, hc, hca⟩ := hover.cases_head.resolve_left hne.symm
  have hc' : c ∉ moved := fun hmem => ha' (hca.eq_of_leaf (h.leaf c hmem) ▸ hmem)
  have hmem := (h.mem (h.inside hc).2 hc').mpr hc
  obtain ⟨l, hl⟩ := h.last
  refine ⟨w, c, size, ?_, (h.over_iff ha ha').mpr hca, .refl⟩
  rw [hl, List.mem_append, List.mem_singleton] at hmem
  rw [hl]
  exact List.cons_sublist_iff.mpr ⟨l, [size], rfl,
    hmem.resolve_right (Nat.ne_of_lt (h.inside hc).2), .refl _⟩

/-- What the owner covers is ahead of the new node. -/
theorem covers_new (h : Grafted size w moved own own') (hew : Covers own Z Y e w) (hne : e ≠ w)
    (he : e < size) (he' : e ∉ moved) : Ahead own' e size ∨ Parted own' Z Y e size := by
  rcases hew with hover | hahead | ⟨z, hz, hze, hzw⟩ | ⟨y, hy, hyw, hye⟩
  · exact .inl (h.ahead_new hover hne he he')
  · have hw := h.ahead hahead he he' h.owner h.owner_not_moved
    exact .inl (hw.over (.single (h.child.mpr rfl)))
  · refine .inr (.inl ⟨z, hz, (h.over_iff he he').mpr hze, fun hnew => ?_⟩)
    exact (h.over_new.mp hnew).elim (Nat.ne_of_lt (h.lt hze he)) hzw
  · refine .inr (.inr ⟨y, hy, h.over_new.mpr (.inr hyw), fun hover => ?_⟩)
    exact hye ((h.over_iff he he').mp hover)

/-- The new node is as far inside as its owner. -/
theorem inner_new (h : Grafted size w moved own own') (hwm : Inner own Z w m) (hm : m < size)
    (hm' : m ∉ moved) : Inner own' Z size m := by
  rcases hwm with hover | hahead | ⟨z, hz, hzw, hzm⟩
  · exact .inl (h.over_new.mpr (.inr hover))
  · obtain ⟨n, x, y, hxy, hx, hy⟩ := h.ahead hahead h.owner h.owner_not_moved hm hm'
    exact .inr (.inl ⟨n, x, y, hxy, hx.trans (.single (h.child.mpr rfl)), hy⟩)
  · refine .inr (.inr ⟨z, hz, h.over_new.mpr (.inr hzw), fun hover => ?_⟩)
    exact hzm ((h.over_iff hm hm').mp hover)

/-- What is inside the owner is inside the new node. -/
theorem new_inner (h : Grafted size w moved own own') (haw : Inner own Z a w) (hne : a ≠ w)
    (ha : a < size) (ha' : a ∉ moved) : Inner own' Z a size := by
  rcases h.covers_new (haw.covers (Y := fun _ => False) .refl) hne ha ha' with
    hahead | hparted | ⟨_, hnone, -⟩
  · exact .inr (.inl hahead)
  · exact .inr (.inr hparted)
  · exact hnone.elim

end Grafted

/-! ## Open nodes -/

/-- The nodes `E` are in order, and all nodes `opens`, the innermost first, cover them. -/
structure Branched (own : Nat → List Nat) (Z Y E : Nat → Prop) (opens : List Nat) : Prop where
  events : ∀ {a b}, E a → E b → a < b → Ahead own a b ∨ Parted own Z Y a b
  covers : ∀ {m e}, m ∈ opens → E e → Covers own Z Y e m
  nest : opens.Pairwise (Inner own Z)

namespace Branched

variable {E E' : Nat → Prop} {opens opens' : List Nat}

theorem sublist (h : Branched own Z Y E opens) (hsub : opens'.Sublist opens)
    (hE : ∀ {e}, E' e → E e) : Branched own Z Y E' opens' where
  events ha hb := h.events (hE ha) (hE hb)
  covers hm he := h.covers (hsub.subset hm) (hE he)
  nest := h.nest.sublist hsub

/-- A node inside all open ones is opened. -/
theorem push (h : Branched own Z Y E opens) (hcovers : ∀ {e}, E e → Covers own Z Y e w)
    (hinner : ∀ m ∈ opens, Inner own Z w m) : Branched own Z Y E (w :: opens) where
  events := h.events
  covers hm he := by
    rcases List.mem_cons.mp hm with rfl | hm
    · exact hcovers he
    · exact h.covers hm he
  nest := List.pairwise_cons.mpr ⟨hinner, h.nest⟩

/-- Old nodes are as they were where only new ones are added. -/
theorem regrown (h : Branched own Z Y E opens) (hg : Regrown size [] own own')
    (hE : ∀ {e}, E e → e < size) (hopens : ∀ m ∈ opens, m < size) : Branched own' Z Y E opens where
  events ha hb hab := by
    refine (h.events ha hb hab).imp (fun hahead => ?_) fun hparted => ?_
    · exact hg.ahead hahead (hE ha) List.not_mem_nil (hE hb) List.not_mem_nil
    · exact hg.parted hparted (hE ha) List.not_mem_nil (hE hb) List.not_mem_nil
  covers hm he := hg.covers (h.covers hm he) (hE he) List.not_mem_nil (hopens _ hm) List.not_mem_nil
  nest := h.nest.imp_of_mem fun ha hb hab =>
    hg.inner hab (hopens _ ha) List.not_mem_nil (hopens _ hb) List.not_mem_nil

/-- A new node takes the last of the nodes `E`, if it is put where the others are covered and inside
all open nodes. -/
theorem grafted (h : Branched own Z Y E opens) (hg : Grafted size w moved own own')
    (hE : ∀ {e}, E e → e < size) (hleaf : ∀ {e}, E e → own e = []) (hw : ¬E w)
    (hopens : ∀ m ∈ opens, m < size ∧ m ∉ moved)
    (hsorted : moved.Pairwise (· < ·)) (hlast : ∀ {e x}, E e → e ∉ moved → x ∈ moved → e < x)
    (hcovers : ∀ {e}, E e → e ∉ moved → Covers own Z Y e w)
    (hinner : ∀ m ∈ opens, Inner own' Z size m) :
    Branched own' Z Y E opens ∧ ∀ {e}, E e → Covers own' Z Y e size := by
  have hover {x : Nat} (hx : x ∈ moved) : Over own' size x := (hg.over_moved hx).mpr (.inr .refl)
  have hnew {e : Nat} (he : E e) (he' : e ∉ moved) : Ahead own' e size ∨ Parted own' Z Y e size :=
    hg.covers_new (hcovers he he') (fun heq => hw (heq ▸ he)) (hE he) he'
  refine ⟨⟨fun {a b} ha hb hab => ?_, fun {m e} hm he => ?_, ?_⟩, fun {e} he => ?_⟩
  · by_cases ha' : a ∈ moved <;> by_cases hb' : b ∈ moved
    · refine .inl ⟨size, a, b, ?_, .refl, .refl⟩
      obtain ⟨front, back, hsplit⟩ := List.append_of_mem ha'
      rw [hsplit] at hsorted hb'
      rw [hg.taken, hsplit]
      obtain ⟨-, -, hfront⟩ := List.pairwise_append.mp hsorted
      have hmem : b ∈ back := by
        rcases List.mem_append.mp hb' with hb' | hb'
        · exact absurd (hfront b hb' a List.mem_cons_self) (Nat.not_lt.mpr (Nat.le_of_lt hab))
        · exact (List.mem_cons.mp hb').resolve_left (Nat.ne_of_gt hab)
      exact ((List.singleton_sublist.mpr hmem).cons_cons a).trans (List.sublist_append_right ..)
    · exact absurd (hlast hb hb' ha') (Nat.not_lt.mpr (Nat.le_of_lt hab))
    · have hne {z : Nat} (hza : Over own' z a) : z ≠ b := by
        -- No leaf is over another node.
        rintro rfl
        exact ha' ((((hg.over_iff (hE ha) ha').mp hza).eq_of_leaf (hleaf hb)) ▸ hb')
      rcases hnew ha ha' with hahead | ⟨z, hz, hza, hzn⟩ | ⟨y, hy, hyn, hya⟩
      · exact .inl (hahead.over (hover hb'))
      · refine .inr (.inl ⟨z, hz, hza, fun hzb => ?_⟩)
        exact ((hg.over_moved hb').mp hzb).elim (hne hza) hzn
      · exact .inr (.inr ⟨y, hy, hyn.trans (hover hb'), hya⟩)
    · refine (h.events ha hb hab).imp (fun hahead => ?_) fun hparted => ?_
      · exact hg.ahead hahead (hE ha) ha' (hE hb) hb'
      · exact hg.parted hparted (hE ha) ha' (hE hb) hb'
  · by_cases he' : e ∈ moved
    · exact (hinner m hm).covers (hover he')
    · obtain ⟨hlt, hm'⟩ := hopens m hm
      exact hg.covers (h.covers hm he) (hE he) he' hlt hm'
  · refine h.nest.imp_of_mem fun ha hb hab => ?_
    obtain ⟨ha, ha'⟩ := hopens _ ha
    obtain ⟨hb, hb'⟩ := hopens _ hb
    exact hg.inner hab ha ha' hb hb'
  · by_cases he' : e ∈ moved
    · exact .inl (hover he')
    · exact .inr (hnew he he')

/-- A new node is the last of the nodes `E`. -/
theorem newest (h : Branched own Z Y E opens) (hg : Grafted size w [] own own')
    (hE : ∀ {e}, E e → e < size) (hw : ¬E w) (hopens : ∀ m ∈ opens, m < size)
    (hcovers : ∀ {e}, E e → Covers own Z Y e w) (hinner : ∀ m ∈ opens, Inner own Z w m)
    (hE' : ∀ {e}, E' e → E e ∨ e = size) : Branched own' Z Y E' opens := by
  have hold := h.regrown hg.toRegrown hE hopens
  refine ⟨fun {a b} ha hb hab => ?_, fun {m e} hm he => ?_, hold.nest⟩
  · rcases hE' hb with hb | rfl
    · refine hold.events ((hE' ha).resolve_right fun heq => ?_) hb hab
      exact absurd (hE hb) (Nat.not_lt.mpr (Nat.le_of_lt (heq ▸ hab)))
    · have ha := (hE' ha).resolve_right (Nat.ne_of_lt hab)
      exact hg.covers_new (hcovers ha) (fun heq => hw (heq ▸ ha)) (hE ha) List.not_mem_nil
  · rcases hE' he with he | rfl
    · exact hold.covers hm he
    · exact (hg.inner_new (hinner m hm) (hopens m hm) List.not_mem_nil).covers .refl

end Branched

end CaptureForest
