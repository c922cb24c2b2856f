import ImpossibleOs.Ex.AvlRep

/-!
Lookup, insertion, deletion and enumeration on trees in memory.

The last two work at a place in the tree. `Seg` says that the frames of a context
are linked from the place upwards; the heights of its nodes are left open, since
they are stale until the deletion has retraced its way to the root.
-/

namespace ImpossibleOs.Ex

open AvlTree AvlTree.Tree
open List hiding cons nil

variable {α : Type} {cmp : α → α → Ordering} {m m' : Nodes α} {p q n x y z : ℕ}
  {t l r s : AvlTree.Tree ℕ} {fuel : ℕ}

/-- The elements are in ascending order. -/
def Ordered (cmp : α → α → Ordering) (m : Nodes α) (nodes : List ℕ) : Prop :=
  nodes.Pairwise fun a b => cmp (m.body a) (m.body b) = .lt

/-- What a search returns: 0 and no element is equal to the key, or a node with one. -/
def Found (cmp : α → α → Ordering) (m : Nodes α) (key : α) (nodes : List ℕ) (z : ℕ) : Prop :=
  (z = 0 ∧ ∀ q ∈ nodes, cmp key (m.body q) ≠ .eq) ∨ (z ∈ nodes ∧ cmp key (m.body z) = .eq)

theorem fuel_of_node {l r : AvlTree.Tree ℕ} {q : ℕ} (h : (node l q r).height < fuel) :
    ∃ f : ℕ, fuel = f + 1 ∧ l.height < f ∧ r.height < f := by
  have hpos := height_nonneg (node l q r)
  cases fuel with
  | zero =>
    simp only [Nat.cast_zero] at h
    omega
  | succ f =>
    simp only [AvlTree.Tree.height] at h
    push_cast at h
    exact ⟨f, rfl, by omega, by omega⟩

theorem avlFind_spec [Std.TransCmp cmp] (key : α) (h : Rep m p t)
    (hord : Ordered cmp m t.toList) (hfuel : t.height < fuel) :
    ∃ z, avlFind cmp m key fuel p = some z ∧ Found cmp m key t.toList z := by
  induction t generalizing p fuel with
  | nil =>
    cases fuel with
    | zero => simp [AvlTree.Tree.height] at hfuel
    | succ fuel =>
      rw [show p = 0 from h]
      exact ⟨0, by simp [avlFind], .inl ⟨rfl, by simp [toList]⟩⟩
  | node l q r ihl ihr =>
    obtain ⟨rfl, hne, -, hl, hr⟩ := rep_node.mp h
    obtain ⟨fuel, rfl, hlf, hrf⟩ := fuel_of_node hfuel
    simp only [Ordered, toList] at hord
    obtain ⟨hol, hor, hcross⟩ := List.pairwise_append.mp hord
    obtain ⟨hpr, hor⟩ := List.pairwise_cons.mp hor
    rw [avlFind, if_neg hne]
    cases hc : cmp key (m.body p) with
    | lt =>
      obtain ⟨z, hz, hfound⟩ := ihl hl.1 hol hlf
      refine ⟨z, hz, hfound.imp (fun hf => ⟨hf.1, fun q hq => ?_⟩) fun hf => ⟨?_, hf.2⟩⟩
      · rcases List.mem_append.mp hq with hq | hq
        · exact hf.2 q hq
        · rcases List.mem_cons.mp hq with rfl | hq
          · rw [hc]
            rintro ⟨⟩
          · rw [Std.TransCmp.lt_trans hc (hpr q hq)]
            rintro ⟨⟩
      · simp [toList, hf.1]
    | eq => exact ⟨p, rfl, .inr ⟨by simp [toList], hc⟩⟩
    | gt =>
      obtain ⟨z, hz, hfound⟩ := ihr hr.1 hor hrf
      refine ⟨z, hz, hfound.imp (fun hf => ⟨hf.1, fun q hq => ?_⟩) fun hf => ⟨?_, hf.2⟩⟩
      · rcases List.mem_append.mp hq with hq | hq
        · have hlt := hcross q hq p mem_cons_self
          have hgt : cmp (m.body p) key = .lt := Std.OrientedCmp.lt_of_gt hc
          rw [Std.OrientedCmp.gt_of_lt (Std.TransCmp.lt_trans hlt hgt)]
          rintro ⟨⟩
        · rcases List.mem_cons.mp hq with rfl | hq
          · rw [hc]
            rintro ⟨⟩
          · exact hf.2 q hq
      · simp [toList, hf.1]

def goesLeft (cmp : α → α → Ordering) (m : Nodes α) (nn q : ℕ) : Bool :=
  cmp (m.body nn) (m.body q) == .lt

theorem insert_ne_nil (goLeft : ℕ → Bool) (nn : ℕ) (t : AvlTree.Tree ℕ) :
    t.insert goLeft nn ≠ nil := by
  intro h
  have hperm := perm_insert goLeft nn t
  rw [h] at hperm
  exact absurd hperm.nil_eq (by simp)

theorem Hung.rebalance {m'' : Nodes α} (hn : n ≠ 0) (hung : Hung m m'' n s l r)
    (hs : ∀ q ∈ s.toList, q ∈ (node l n r).toList) (hnd : (node l n r).toList.Nodup) :
    Turned m (avlRebalance m'' n).1 (avlRebalance m'' n).2 (node l n r).rebalance := by
  have hreb := avlRebalance_spec hn hung.left hung.right hnd
  refine ⟨hreb.turned.rep, fun q hq => ?_, hreb.turned.body.trans hung.body⟩
  refine (hung.frame q ?_ ?_).trans (hreb.turned.frame q hq)
  · rw [toList_rebalance] at hq
    exact fun hqs => hq (hs q hqs)
  · rintro rfl
    rw [toList_rebalance] at hq
    exact hq (by simp [toList])

theorem avlInsertRec_spec (cmp : α → α → Ordering) {nn : ℕ} (hnn : nn ≠ 0)
    (hnew : m.left nn = 0 ∧ m.right nn = 0 ∧ m.height nn = 1) (h : Rep m p t)
    (hnd : t.toList.Nodup) (hfresh : nn ∉ t.toList) (hfuel : t.height < fuel) :
    ∃ m' p', avlInsertRec cmp nn fuel m p = some (m', p') ∧
      Turned m m' p' (t.insert (goesLeft cmp m nn) nn) := by
  induction t generalizing p fuel with
  | nil =>
    cases fuel with
    | zero => simp [AvlTree.Tree.height] at hfuel
    | succ fuel =>
      rw [show p = 0 from h]
      refine ⟨m, nn, by simp [avlInsertRec], rep_node.mpr ⟨rfl, hnn, hnew.2.2, ?_, ?_⟩,
        fun q _ => Same.refl m q, rfl⟩
      · rw [hnew.1]
        exact ⟨rfl, fun h0 => absurd rfl h0⟩
      · rw [hnew.2.1]
        exact ⟨rfl, fun h0 => absurd rfl h0⟩
  | node l q r ihl ihr =>
    obtain ⟨rfl, hne, -, hl, hr⟩ := rep_node.mp h
    obtain ⟨fuel, rfl, hlf, hrf⟩ := fuel_of_node hfuel
    have hfresh' := hfresh
    have hnd' := hnd
    simp only [toList, mem_append, mem_cons, not_or] at hfresh'
    simp only [toList, nodup_append, nodup_cons] at hnd'
    rw [avlInsertRec, if_neg hne, AvlTree.Tree.insert]
    by_cases hgo : goesLeft cmp m nn p = true
    · have hc : cmp (m.body nn) (m.body p) = .lt := by simpa [goesLeft] using hgo
      obtain ⟨m₁, c, hrec, hturn⟩ := ihl hl.1 hnd'.1 hfresh'.1 hlf
      have hc0 : c ≠ 0 := fun h0 => insert_ne_nil _ nn l (hturn.rep.eq_zero_iff.mp h0)
      have hperm : (node (l.insert (goesLeft cmp m nn) nn) p r).toList.Perm
          (nn :: (node l p r).toList) := (perm_insert _ nn l).append_right _
      have hnd₁ : (node (l.insert (goesLeft cmp m nn) nn) p r).toList.Nodup :=
        hperm.nodup_iff.mpr (List.nodup_cons.mpr ⟨hfresh, hnd⟩)
      have hung := hangLeft_spec hturn hc0 hnd₁ hr
      rw [if_pos hgo]
      refine ⟨_, _, by rw [hc]; simp only [hrec, Option.bind_eq_bind, Option.bind_some],
        hung.rebalance hne ?_ hnd₁⟩
      exact fun q hq => mem_append_left _ hq
    · have hc : cmp (m.body nn) (m.body p) ≠ .lt := by simpa [goesLeft] using hgo
      obtain ⟨m₁, c, hrec, hturn⟩ := ihr hr.1 hnd'.2.1.2 hfresh'.2.2 hrf
      have hc0 : c ≠ 0 := fun h0 => insert_ne_nil _ nn r (hturn.rep.eq_zero_iff.mp h0)
      have hperm : (node l p (r.insert (goesLeft cmp m nn) nn)).toList.Perm
          (nn :: (node l p r).toList) := by
        refine (((perm_insert _ nn r).cons p).append_left l.toList).trans ?_
        exact ((List.Perm.swap nn p r.toList).append_left l.toList).trans perm_middle
      have hnd₁ : (node l p (r.insert (goesLeft cmp m nn) nn)).toList.Nodup :=
        hperm.nodup_iff.mpr (List.nodup_cons.mpr ⟨hfresh, hnd⟩)
      have hung := hangRight_spec hturn hc0 hnd₁ hl
      rw [if_neg hgo]
      refine ⟨_, _, ?_, hung.rebalance hne ?_ hnd₁⟩
      · cases hcmp : cmp (m.body nn) (m.body p) with
        | lt => exact absurd hcmp hc
        | eq => simp only [hrec, Option.bind_eq_bind, Option.bind_some]
        | gt => simp only [hrec, Option.bind_eq_bind, Option.bind_some]
      · exact fun q hq => mem_append_right _ (mem_cons_of_mem _ hq)

variable {α : Type} {m m' : Nodes α} {p q n x y z par hole : ℕ} {t l r s u : AvlTree.Tree ℕ}
  {c c₁ c₂ : Context ℕ} {f : Frame ℕ} {fuel : ℕ}

/-! ### Contexts -/

/-- The node of the frame has `hole` on the side of the hole, and its other side. -/
def Around (m : Nodes α) (f : Frame ℕ) (hole : ℕ) : Prop :=
  match f with
  | .left q r => m.left q = hole ∧ Child m q (m.right q) r
  | .right l q => m.right q = hole ∧ Child m q (m.left q) l

/-- The frames are linked upwards from `hole` with parent `par`, up to `topHole` with parent
`topPar`. -/
def Seg (m : Nodes α) : Context ℕ → ℕ → ℕ → ℕ → ℕ → Prop
  | [], par, hole, topPar, topHole => par = topPar ∧ hole = topHole
  | f :: c, par, hole, topPar, topHole =>
    par = f.label ∧ f.label ≠ 0 ∧ Around m f hole ∧
      Seg m c (m.parent f.label) f.label topPar topHole

def side : Frame ℕ → AvlTree.Tree ℕ
  | .left _ r => r
  | .right l _ => l

def ctxNodes : Context ℕ → List ℕ
  | [] => []
  | f :: c => f.label :: ((side f).toList ++ ctxNodes c)

theorem fill_perm (f : Frame ℕ) (t : AvlTree.Tree ℕ) :
    (f.fill t).toList.Perm (f.label :: ((side f).toList ++ t.toList)) := by
  cases f with
  | left q r =>
    refine List.perm_middle.trans (List.Perm.cons q ?_)
    exact perm_append_comm
  | right l q => exact perm_middle

theorem plug_perm (c : Context ℕ) (t : AvlTree.Tree ℕ) :
    (plug c t).toList.Perm (ctxNodes c ++ t.toList) := by
  induction c generalizing t with
  | nil => exact List.Perm.refl _
  | cons f c ih =>
    refine (ih (f.fill t)).trans (((fill_perm f t).append_left _).trans ?_)
    refine List.perm_middle.trans (List.Perm.cons _ ?_)
    rw [← append_assoc]
    exact List.perm_append_comm.append_right _

theorem Around.congr (h : Around m f hole) (hleft : m'.left f.label = m.left f.label)
    (hright : m'.right f.label = m.right f.label)
    (hsame : ∀ q ∈ (side f).toList, Same m m' q) : Around m' f hole := by
  cases f with
  | left q r =>
    refine ⟨hleft.trans h.1, ?_⟩
    rw [show m'.right q = m.right q from hright]
    exact h.2.congr hsame
  | right l q =>
    refine ⟨hright.trans h.1, ?_⟩
    rw [show m'.left q = m.left q from hleft]
    exact h.2.congr hsame

variable {topPar topHole : ℕ}

theorem Seg.congr (h : Seg m c par hole topPar topHole)
    (hsame : ∀ q ∈ ctxNodes c, Same m m' q) : Seg m' c par hole topPar topHole := by
  induction c generalizing par hole with
  | nil => exact h
  | cons f c ih =>
    obtain ⟨hpar, hne, haround, hrest⟩ := h
    have hf := hsame f.label mem_cons_self
    refine ⟨hpar, hne, haround.congr hf.left hf.right fun q hq => hsame q ?_, ?_⟩
    · exact mem_cons_of_mem _ (mem_append_left _ hq)
    · rw [hf.parent]
      exact ih hrest fun q hq => hsame q (mem_cons_of_mem _ (mem_append_right _ hq))

theorem seg_append : Seg m (c₁ ++ c₂) par hole topPar topHole ↔
      ∃ midPar midHole, Seg m c₁ par hole midPar midHole ∧
        Seg m c₂ midPar midHole topPar topHole := by
  induction c₁ generalizing par hole with
  | nil =>
    constructor
    · exact fun h => ⟨par, hole, ⟨rfl, rfl⟩, h⟩
    · rintro ⟨_, _, ⟨rfl, rfl⟩, h⟩
      exact h
  | cons f c₁ ih =>
    simp only [cons_append, Seg, ih]
    constructor
    · rintro ⟨h₁, h₂, h₃, midPar, midHole, h₄, h₅⟩
      exact ⟨midPar, midHole, ⟨h₁, h₂, h₃, h₄⟩, h₅⟩
    · rintro ⟨midPar, midHole, ⟨h₁, h₂, h₃, h₄⟩, h₅⟩
      exact ⟨h₁, h₂, h₃, midPar, midHole, h₄, h₅⟩

theorem Child.unplug {topPar root : ℕ} (h : Child m topPar root (plug c s)) :
    ∃ par hole, Seg m c par hole topPar root ∧ Child m par hole s := by
  induction c generalizing s with
  | nil => exact ⟨topPar, root, ⟨rfl, rfl⟩, h⟩
  | cons f c ih =>
    obtain ⟨par, hole, hseg, hchild⟩ := ih h
    cases f with
    | left q r =>
      obtain ⟨rfl, hne, -, hl, hr⟩ := rep_node.mp hchild.1
      refine ⟨hole, m.left hole, ⟨rfl, hne, ⟨rfl, hr⟩, ?_⟩, hl⟩
      rw [show m.parent (Frame.left hole r).label = par from hchild.2 hne]
      exact hseg
    | right l q =>
      obtain ⟨rfl, hne, -, hl, hr⟩ := rep_node.mp hchild.1
      refine ⟨hole, m.right hole, ⟨rfl, hne, ⟨rfl, hl⟩, ?_⟩, hr⟩
      rw [show m.parent (Frame.right l hole).label = par from hchild.2 hne]
      exact hseg

theorem Seg.retop {topPar topPar' topHole : ℕ} (h : Seg m c par hole topPar topHole)
    (hc : c ≠ []) (hnd : (ctxNodes c).Nodup) (hsame : ∀ q ∈ ctxNodes c, q ≠ topHole → Same m m' q)
    (htop : m'.parent topHole = topPar' ∧ m'.left topHole = m.left topHole ∧
      m'.right topHole = m.right topHole) :
    Seg m' c par hole topPar' topHole ∧ topHole ∈ ctxNodes c := by
  induction c generalizing par hole with
  | nil => exact absurd rfl hc
  | cons f c ih =>
    obtain ⟨hpar, hne, haround, hrest⟩ := h
    simp only [ctxNodes, nodup_cons, nodup_append, mem_append] at hnd
    by_cases hlast : c = []
    · subst hlast
      obtain ⟨-, rfl⟩ := hrest
      refine ⟨⟨hpar, hne, haround.congr htop.2.1 htop.2.2 fun q hq => hsame q ?_ ?_, ?_⟩,
        mem_cons_self⟩
      · exact mem_cons_of_mem _ (mem_append_left _ hq)
      · rintro rfl
        exact hnd.1 (.inl hq)
      · exact ⟨htop.1, rfl⟩
    · have hrec := ih hrest hlast hnd.2.2.1 fun q hq => hsame q
        (mem_cons_of_mem _ (mem_append_right _ hq))
      have hne' : f.label ≠ topHole := by
        intro heq
        exact hnd.1 (.inr (heq ▸ hrec.2))
      have hf := hsame f.label mem_cons_self hne'
      refine ⟨⟨hpar, hne, haround.congr hf.left hf.right fun q hq => hsame q ?_ ?_, ?_⟩, ?_⟩
      · exact mem_cons_of_mem _ (mem_append_left _ hq)
      · rintro rfl
        exact hnd.2.2.2 q hq q hrec.2 rfl
      · rw [hf.parent]
        exact hrec.1
      · exact mem_cons_of_mem _ (mem_append_right _ hrec.2)

/-- What a new link from above leaves as it was. -/
structure Relinked (t t' : AvlTable α) (par : ℕ) : Prop where
  parent : t'.nodes.parent = t.nodes.parent
  frame : ∀ q, q ≠ par → Same t.nodes t'.nodes q
  body : t'.nodes.body = t.nodes.body
  number : t'.numberOfElements = t.numberOfElements

theorem relink_relinked (t : AvlTable α) (par old new : ℕ) :
    Relinked t (relink t par old new) par := by
  unfold relink
  split
  · exact ⟨rfl, fun q _ => Same.refl _ q, rfl, rfl⟩
  · split
    · refine ⟨rfl, fun q hq => ?_, rfl, rfl⟩
      constructor <;> simp [hq]
    · refine ⟨rfl, fun q hq => ?_, rfl, rfl⟩
      constructor <;> simp [hq]

theorem relink_seg {t : AvlTable α} {old : ℕ} (new : ℕ) (h : Seg t.nodes c par old 0 t.root)
    (hold : old ≠ 0) (hout : old ∉ ctxNodes c) (hnd : (ctxNodes c).Nodup) :
    Seg (relink t par old new).nodes c par new 0 (relink t par old new).root := by
  cases c with
  | nil =>
    obtain ⟨rfl, -⟩ := h
    rw [relink, if_pos rfl]
    exact ⟨rfl, rfl⟩
  | cons f c =>
    have hlinked := relink_relinked t par old new
    obtain ⟨hpar, hne, haround, hrest⟩ := h
    simp only [ctxNodes, nodup_cons, nodup_append, mem_append] at hnd hout
    have hroot : (relink t par old new).root = t.root := by
      rw [relink, if_neg (by rw [hpar]; exact hne)]
      split <;> rfl
    refine ⟨hpar, hne, ?_, ?_⟩
    · have hside : ∀ q ∈ (side f).toList, Same t.nodes (relink t par old new).nodes q := by
        intro q hq
        refine hlinked.frame q ?_
        rintro rfl
        exact hnd.1 (.inl (hpar ▸ hq))
      subst hpar
      cases f with
      | left q r =>
        have hres : relink t q old new = { t with nodes := t.nodes.setLeft q new } := by
          rw [relink, if_neg (show q ≠ 0 from hne), if_pos haround.1]
        simp only [Frame.label] at hside ⊢
        rw [hres] at hside ⊢
        exact ⟨by simp, haround.2.congr hside⟩
      | right l q =>
        have hleft : t.nodes.left q ≠ old := by
          intro heq
          have hmem := haround.2.1.mem (by rw [heq]; exact hold)
          exact hout (mem_cons_of_mem _ (mem_append_left _ (heq ▸ hmem)))
        have hres : relink t q old new = { t with nodes := t.nodes.setRight q new } := by
          rw [relink, if_neg (show q ≠ 0 from hne), if_neg hleft]
        simp only [Frame.label] at hside ⊢
        rw [hres] at hside ⊢
        exact ⟨by simp, haround.2.congr hside⟩
    · rw [hroot, hlinked.parent]
      refine hrest.congr fun q hq => hlinked.frame q ?_
      rintro rfl
      exact hnd.1 (.inr (hpar ▸ hq))

/-! ### The way back to the root -/

structure Place (t : AvlTable α) (c : Context ℕ) (par hole : ℕ) (s : AvlTree.Tree ℕ) : Prop where
  seg : Seg t.nodes c par hole 0 t.root
  child : Child t.nodes par hole s
  nodup : (ctxNodes c ++ s.toList).Nodup

theorem Place.fill {t : AvlTable α} (h : Place t (f :: c) par hole s) :
    ∃ l r, f.fill s = node l f.label r ∧ Child t.nodes f.label (t.nodes.left f.label) l ∧
      Child t.nodes f.label (t.nodes.right f.label) r := by
  obtain ⟨hpar, -, haround, -⟩ := h.seg
  have hchild := h.child
  rw [hpar] at hchild
  cases f with
  | left q r => exact ⟨s, r, rfl, haround.1.symm ▸ hchild, haround.2⟩
  | right l q => exact ⟨l, s, rfl, haround.2, haround.1.symm ▸ hchild⟩

theorem Place.step {t : AvlTable α} (h : Place t (f :: c) par hole s) :
    par ≠ 0 ∧ ∃ new, Place (retraceStep t par) c (t.nodes.parent par) new (f.fill s).rebalance ∧
      (retraceStep t par).nodes.body = t.nodes.body ∧
      (retraceStep t par).numberOfElements = t.numberOfElements := by
  obtain ⟨l, r, hfill, hl, hr⟩ := h.fill
  obtain ⟨rfl, hne, haround, hrest⟩ := h.seg
  have hperm : (f.fill s).toList.Perm (f.label :: ((side f).toList ++ s.toList)) := fill_perm f s
  have hall : (ctxNodes c ++ (f.fill s).toList).Nodup := by
    refine (List.Perm.nodup_iff ?_).mpr h.nodup
    refine (hperm.append_left _).trans (List.perm_middle.trans (List.Perm.cons _ ?_))
    rw [← append_assoc]
    exact List.perm_append_comm.append_right _
  obtain ⟨hndc, hndf, hdisj⟩ := List.nodup_append.mp hall
  rw [hfill] at hndf hdisj
  have hreb := avlRebalance_spec hne hl hr hndf
  have hlist := toList_rebalance (node l f.label r)
  have hmem : ∀ q, q ∈ ctxNodes c → q ∉ (node l f.label r).rebalance.toList := by
    intro q hq hq'
    rw [hlist] at hq'
    exact hdisj q hq q hq' rfl
  rw [hfill]
  -- the frames above are untouched
  have hseg : Seg (avlRebalance t.nodes f.label).1 c (t.nodes.parent f.label) f.label 0 t.root :=
    hrest.congr fun q hq => hreb.turned.frame q (hmem q hq)
  unfold retraceStep
  simp only
  generalize (avlRebalance t.nodes f.label) = res at hreb hseg
  obtain ⟨m', new⟩ := res
  simp only at hreb hseg ⊢
  refine ⟨hne, new, ?_⟩
  have hnd' : (ctxNodes c ++ (node l f.label r).rebalance.toList).Nodup := by
    rw [hlist, ← hfill]
    exact hall
  by_cases hsame : new = f.label
  · rw [if_neg (not_not.mpr hsame)]
    refine ⟨⟨?_, ⟨hreb.turned.rep, fun _ => ?_⟩, hnd'⟩, hreb.turned.body, rfl⟩
    · rw [hsame]
      exact hseg
    · rw [hsame]
      exact hreb.parent hsame
  · rw [if_pos hsame]
    have hnew0 : new ≠ 0 := by
      intro h0
      have := hreb.turned.rep.eq_zero_iff.mp h0
      have hn : (node l f.label r).toList = [] := by rw [← hlist, this]; rfl
      simp [toList] at hn
    have hnewmem := hreb.turned.rep.mem hnew0
    generalize ht₁ : ({ t with nodes := m' } : AvlTable α) = t₁
    have hseg₁ : Seg t₁.nodes c (t.nodes.parent f.label) f.label 0 t₁.root := by
      rw [← ht₁]
      exact hseg
    have hlink := relink_relinked t₁ (t.nodes.parent f.label) f.label new
    have hout : f.label ∉ ctxNodes c := fun hq => hdisj _ hq _ (by simp [toList]) rfl
    have hseg₂ := relink_seg new hseg₁ hne hout hndc
    -- the parent of the place is a frame's node, or none
    have hparout : ∀ q ∈ (node l f.label r).rebalance.toList, q ≠ t.nodes.parent f.label := by
      intro q hq heq
      cases c with
      | nil =>
        rw [heq, show t.nodes.parent f.label = 0 from hrest.1] at hq
        exact hreb.turned.rep.zero_notMem hq
      | cons g c =>
        refine hmem q ?_ hq
        rw [heq, show t.nodes.parent f.label = g.label from hrest.1]
        exact mem_cons_self
    generalize relink t₁ (t.nodes.parent f.label) f.label new = t₂ at hlink hseg₂ ⊢
    refine ⟨⟨hseg₂.congr fun q hq => ?_, ⟨?_, fun _ => ?_⟩, hnd'⟩, ?_, ?_⟩
    · have hqn : q ≠ new := fun heq => hmem q hq (heq ▸ hnewmem)
      constructor <;> simp [hqn]
    · have hm' : t₁.nodes = m' := by rw [← ht₁]
      refine hreb.turned.rep.reparent ?_ (fun q hq hqn => ?_) fun _ => ?_
      · rw [hlist]
        exact hndf
      · have hs := hlink.frame q (hparout q hq)
        rw [hm'] at hs
        refine hs.trans ?_
        constructor <;> simp [hqn]
      · have hs := hlink.frame new (hparout new hnewmem)
        rw [hm'] at hs
        exact ⟨hs.left, hs.right, hs.height⟩
    · simp
    · show t₂.nodes.body = t.nodes.body
      rw [hlink.body, ← ht₁]
      exact hreb.turned.body
    · show t₂.numberOfElements = t.numberOfElements
      rw [hlink.number, ← ht₁]

theorem retrace_spec {t : AvlTable α} (h : Place t c par hole s) (hfuel : c.length < fuel) :
    ∃ t', retrace fuel t par = some t' ∧ Child t'.nodes 0 t'.root (rebuild c s) ∧
      t'.nodes.body = t.nodes.body ∧ t'.numberOfElements = t.numberOfElements := by
  induction c generalizing t par hole s fuel with
  | nil =>
    obtain ⟨fuel, rfl⟩ := Nat.exists_eq_add_of_lt hfuel
    obtain ⟨rfl, rfl⟩ := h.seg
    exact ⟨t, by simp [retrace], h.child, rfl, rfl⟩
  | cons f c ih =>
    obtain ⟨fuel, rfl⟩ := Nat.exists_eq_add_of_lt hfuel
    obtain ⟨hne, new, hplace, hbody, hnumber⟩ := h.step
    have hless : c.length < c.length + 1 + fuel := by omega
    obtain ⟨t', hrun, hchild, hbody', hnumber'⟩ := ih hplace hless
    refine ⟨t', ?_, hchild, hbody'.trans hbody, hnumber'.trans hnumber⟩
    rw [length_cons, retrace, if_neg hne]
    exact hrun

/-- What taking a node out leaves of the table. -/
structure SplicedOut (t t' : AvlTable α) (c : Context ℕ) (par x : ℕ) (u : AvlTree.Tree ℕ) :
    Prop where
  place : Place t' c par x u
  body : t'.nodes.body = t.nodes.body
  number : t'.numberOfElements = t.numberOfElements
  /-- Nodes outside keep their links. -/
  frame : ∀ q, q ∉ ctxNodes c → q ∉ u.toList → Same t.nodes t'.nodes q

theorem spliceOut_spec {t : AvlTable α} (h : Place t c par y (node l y r))
    (hu : (l = nil ∧ r = u) ∨ (r = nil ∧ l = u)) : ∃ x, SplicedOut t (spliceOut t y) c par x u := by
  obtain ⟨hseg, ⟨hrep, hparent⟩, hnd⟩ := h
  obtain ⟨-, hy0, -, hl, hr⟩ := rep_node.mp hrep
  -- the child that takes its place
  have hchild : ∃ x, (if t.nodes.left y ≠ 0 then t.nodes.left y else t.nodes.right y) = x ∧
      Rep t.nodes x u := by
    refine ⟨_, rfl, ?_⟩
    rcases hu with ⟨rfl, rfl⟩ | ⟨rfl, rfl⟩
    · have h0 : t.nodes.left y = 0 := hl.1
      rw [if_neg (not_not.mpr h0)]
      exact hr.1
    · split
      · exact hl.1
      · rename_i h0
        have h0' := not_not.mp h0
        rw [h0'] at hl
        rw [show t.nodes.right y = 0 from hr.1]
        exact hl.1
  have hlist : ∀ q, q ∈ (node l y r).toList ↔ q = y ∨ q ∈ u.toList := by
    intro q
    rcases hu with ⟨rfl, rfl⟩ | ⟨rfl, rfl⟩
    · simp [toList]
    · simp [toList, or_comm]
  have hndu : u.toList.Nodup ∧ y ∉ u.toList := by
    have hn := (List.nodup_append.mp hnd).2.1
    rcases hu with ⟨rfl, rfl⟩ | ⟨rfl, rfl⟩
    · simpa [toList, and_comm] using hn
    · simp only [toList, nodup_append, mem_singleton] at hn
      exact ⟨hn.1, fun hm => hn.2.2 y hm y rfl rfl⟩
  obtain ⟨hndc, -, hdisj⟩ := List.nodup_append.mp hnd
  have hyc : y ∉ ctxNodes c := fun hq => hdisj y hq y ((hlist y).mpr (.inl rfl)) rfl
  have huc : ∀ q ∈ u.toList, q ∉ ctxNodes c :=
    fun q hq hqc => hdisj q hqc q ((hlist q).mpr (.inr hq)) rfl
  obtain ⟨x, hx, hxu⟩ := hchild
  refine ⟨x, ?_⟩
  unfold spliceOut
  simp only
  rw [hx, hparent hy0]
  generalize ht₁ : ({ t with nodes := t.nodes.setParentOf x par } : AvlTable α) = t₁
  have hnodes : t₁.nodes = t.nodes.setParentOf x par := by rw [← ht₁]
  have hsame : ∀ q, q ∉ u.toList → Same t.nodes t₁.nodes q := by
    intro q hq
    rw [hnodes]
    constructor <;> simp
    rintro h0 rfl
    exact absurd (hxu.mem h0) hq
  have hseg₁ : Seg t₁.nodes c par y 0 t₁.root := by
    rw [← ht₁] at hsame ⊢
    exact hseg.congr fun q hq => hsame q fun hqu => huc q hqu hq
  have hseg₂ := relink_seg x hseg₁ hy0 hyc hndc
  have hlink := relink_relinked t₁ par y x
  -- the parent of the place is not in the subtree
  have hparu : ∀ q ∈ u.toList, q ≠ par := by
    intro q hq heq
    cases c with
    | nil =>
      rw [heq, show par = 0 from hseg.1] at hq
      exact hxu.zero_notMem hq
    | cons f c =>
      refine huc q hq ?_
      rw [heq, show par = f.label from hseg.1]
      exact mem_cons_self
  refine ⟨⟨hseg₂, ⟨?_, fun h0 => ?_⟩, ?_⟩, ?_, ?_, fun q hqc hqu => ?_⟩
  · refine hxu.reparent hndu.1 (fun q hq hqx => ?_) fun h0 => ?_
    · refine Same.trans ?_ (hlink.frame q (hparu q hq))
      rw [hnodes]
      constructor <;> simp [hqx]
    · have hs := hlink.frame x (hparu x (hxu.mem h0))
      rw [hnodes] at hs
      exact ⟨by simpa using hs.left, by simpa using hs.right, by simpa using hs.height⟩
  · rw [hlink.parent, hnodes]
    simp [h0]
  · refine List.nodup_append.mpr ⟨hndc, hndu.1, fun q hq q' hq' => ?_⟩
    rintro rfl
    exact huc q hq' hq
  · rw [hlink.body, hnodes]
    simp
  · rw [hlink.number, ← ht₁]
  · by_cases hpar : q = par
    · subst hpar
      cases c with
      | nil =>
        rw [show relink t₁ q y x = { t₁ with root := x } by rw [relink, if_pos hseg.1]]
        exact hsame q hqu
      | cons f c =>
        rw [show q = f.label from hseg.1] at hqc
        exact absurd mem_cons_self hqc
    · exact (hsame q hqu).trans (hlink.frame q hpar)

/-! ### The successor takes the place of the deleted node -/

theorem ctxNodes_append (c₁ c₂ : Context ℕ) : ctxNodes (c₁ ++ c₂) = ctxNodes c₁ ++ ctxNodes c₂ := by
  induction c₁ with
  | nil => rfl
  | cons f c₁ ih => simp [ctxNodes, ih]

theorem Seg.mem (h : Seg m c par hole topPar topHole) (hc : c ≠ []) :
    par ∈ ctxNodes c ∧ topHole ∈ ctxNodes c := by
  induction c generalizing par hole with
  | nil => exact absurd rfl hc
  | cons f c ih =>
    obtain ⟨rfl, -, -, hrest⟩ := h
    refine ⟨mem_cons_self, ?_⟩
    by_cases hlast : c = []
    · subst hlast
      rw [← hrest.2]
      exact mem_cons_self
    · exact mem_cons_of_mem _ (mem_append_right _ (ih hrest hlast).2)

theorem Seg.zero_notMem (h : Seg m c par hole topPar topHole) : 0 ∉ ctxNodes c := by
  induction c generalizing par hole with
  | nil => exact not_mem_nil
  | cons f c ih =>
    obtain ⟨-, hne, haround, hrest⟩ := h
    have hside : 0 ∉ (side f).toList := by
      cases f with
      | left q r => exact haround.2.1.zero_notMem
      | right l q => exact haround.2.1.zero_notMem
    simp only [ctxNodes, mem_cons, mem_append, not_or]
    exact ⟨hne.symm, hside, ih hrest⟩

/-- The stores of `takePlace`, before the link from above. -/
def placed (m : Nodes α) (y z : ℕ) : Nodes α :=
  ((((((m.setParent y (m.parent z)).setLeft y (m.left z)).setRight y (m.right z)).setHeight y
    (m.height z)).setParentOf (m.left z) y).setParentOf (m.right z) y)

theorem takePlace_eq {t : AvlTable α} (hyz : z ≠ y) :
    takePlace t y z = relink { t with nodes := placed t.nodes y z }
      ((placed t.nodes y z).parent z) z y := by
  unfold takePlace placed
  simp [hyz]

theorem placed_same (hy : q ≠ y) (hl : m.left z ≠ 0 → q ≠ m.left z)
    (hr : m.right z ≠ 0 → q ≠ m.right z) : Same m (placed m y z) q := by
  unfold placed
  constructor
  · simp only [Nodes.setParentOf_parent, Nodes.setHeight_parent, Nodes.setRight_parent,
      Nodes.setLeft_parent, Nodes.setParent_parent]
    rw [if_neg (fun h => hr h.1 h.2), if_neg (fun h => hl h.1 h.2), if_neg hy]
  · simp [hy]
  · simp [hy]
  · simp [hy]

theorem placed_fields (m : Nodes α) (y z : ℕ) :
    (placed m y z).left y = m.left z ∧ (placed m y z).right y = m.right z ∧
      (∀ q, q ≠ y → (placed m y z).left q = m.left q ∧ (placed m y z).right q = m.right q ∧
        (placed m y z).height q = m.height q) ∧
      (m.left z ≠ 0 → (placed m y z).parent (m.left z) = y) ∧
      (m.right z ≠ 0 → (placed m y z).parent (m.right z) = y) ∧ (placed m y z).body = m.body := by
  unfold placed
  refine ⟨by simp, by simp, fun q hq => by simp [hq], fun h0 => ?_, fun h0 => ?_, by simp⟩
  · simp [h0]
  · simp [h0]

theorem placed_parent (hl : m.left z ≠ 0 → y ≠ m.left z) (hr : m.right z ≠ 0 → y ≠ m.right z) :
    (placed m y z).parent y = m.parent z := by
  unfold placed
  simp only [Nodes.setParentOf_parent, Nodes.setHeight_parent, Nodes.setRight_parent,
    Nodes.setLeft_parent, Nodes.setParent_parent]
  rw [if_neg (fun h => hr h.1 h.2), if_neg (fun h => hl h.1 h.2), if_pos trivial]

theorem takePlace_spec {t : AvlTable α} (h : Place t (c₁ ++ .right l z :: c₂) par hole u)
    (hy0 : y ≠ 0) (hy : y ∉ ctxNodes (c₁ ++ .right l z :: c₂) ++ u.toList) :
    Place (takePlace t y z) (c₁ ++ .right l y :: c₂) (if par = z then y else par) hole u ∧
      (takePlace t y z).nodes.body = t.nodes.body ∧
      (takePlace t y z).numberOfElements = t.numberOfElements := by
  obtain ⟨hseg, hchild, hnd⟩ := h
  obtain ⟨midPar, top, hseg₁, hmid, hz0, ⟨htop, hleft⟩, hseg₂⟩ := seg_append.mp hseg
  simp only [Frame.label] at hmid hz0 hseg₂
  replace hmid := hmid.symm
  subst hmid
  have hndall := hnd
  simp only [ctxNodes_append, ctxNodes, Frame.label, side, nodup_append, nodup_cons,
    mem_append, mem_cons] at hnd
  simp only [ctxNodes_append, ctxNodes, Frame.label, side, mem_append, mem_cons,
    not_or] at hy
  -- where the top of the lower segment is
  have htopmem : top ≠ 0 → (c₁ = [] ∧ top ∈ u.toList) ∨ (c₁ ≠ [] ∧ top ∈ ctxNodes c₁) := by
    intro h0
    by_cases hc : c₁ = []
    · subst hc
      obtain ⟨-, rfl⟩ := hseg₁
      exact .inl ⟨rfl, hchild.1.mem h0⟩
    · exact .inr ⟨hc, (hseg₁.mem hc).2⟩
  have hleftmem : t.nodes.left z ≠ 0 → t.nodes.left z ∈ l.toList := hleft.1.mem
  have hzl := hleft.1.zero_notMem
  have hzu := hchild.1.zero_notMem
  have hzc := hseg₁.zero_notMem
  -- the parent of `z` is above
  have hup : t.nodes.parent z = 0 ∨ t.nodes.parent z ∈ ctxNodes c₂ := by
    by_cases hc : c₂ = []
    · subst hc
      exact .inl hseg₂.1
    · exact .inr (hseg₂.mem hc).1
  have hyz : z ≠ y := by grind
  have hsame : ∀ q, q ≠ y → (t.nodes.left z ≠ 0 → q ≠ t.nodes.left z) → (top ≠ 0 → q ≠ top) →
      Same t.nodes (placed t.nodes y z) q := by
    intro q hqy hql hqt
    refine placed_same hqy hql ?_
    rw [htop]
    exact hqt
  have hypar : (placed t.nodes y z).parent y = t.nodes.parent z := by
    refine placed_parent (by grind) ?_
    rw [htop]
    grind
  have hzp : Same t.nodes (placed t.nodes y z) z := hsame z hyz (by grind) (by grind)
  obtain ⟨hyl, hyr, hlinks, hpl, hpr, hbody⟩ := placed_fields t.nodes y z
  rw [htop] at hyr hpr
  rw [takePlace_eq hyz, hzp.parent]
  generalize placed t.nodes y z = m₁ at hsame hypar hzp hyl hyr hlinks hpl hpr hbody
  generalize ht₁ : ({ t with nodes := m₁ } : AvlTable α) = t₁
  have hnodes : t₁.nodes = m₁ := by rw [← ht₁]
  have hup₁ : Seg t₁.nodes c₂ (t.nodes.parent z) z 0 t₁.root := by
    rw [hnodes, show t₁.root = t.root by rw [← ht₁]]
    exact hseg₂.congr fun q hq => hsame q (by grind) (by grind) (by grind)
  have hup₂ := relink_seg y hup₁ hz0 (by grind) (by grind)
  have hlink := relink_relinked t₁ (t.nodes.parent z) z y
  have hnumber : t₁.numberOfElements = t.numberOfElements := by rw [← ht₁]
  generalize relink t₁ (t.nodes.parent z) z y = t₂ at hup₂ hlink ⊢
  have hparent₂ : t₂.nodes.parent = m₁.parent := by rw [hlink.parent, hnodes]
  have hframe : ∀ q, q ≠ t.nodes.parent z → Same m₁ t₂.nodes q := by
    rw [← hnodes]
    exact hlink.frame
  have hylinks := hframe y (by grind)
  -- the frame of the place
  have haround : Around t₂.nodes (.right l y) top := by
    refine ⟨hylinks.right.trans hyr, ?_⟩
    rw [show t₂.nodes.left y = t.nodes.left z from hylinks.left.trans hyl]
    refine ⟨hleft.1.reparent (by grind) (fun q hq hqp => ?_) fun h0 => ?_, fun h0 => ?_⟩
    · exact (hsame q (by grind) (fun _ => hqp) (by grind)).trans (hframe q (by grind))
    · have hq := hlinks (t.nodes.left z) (by grind)
      have hs := hframe (t.nodes.left z) (by grind)
      exact ⟨hs.left.trans hq.1, hs.right.trans hq.2.1, hs.height.trans hq.2.2⟩
    · rw [hparent₂]
      exact hpl h0
  have hrest : Seg t₂.nodes (.right l y :: c₂) y top 0 t₂.root := by
    refine ⟨rfl, hy0, haround, ?_⟩
    rw [show t₂.nodes.parent (Frame.right l y).label = t.nodes.parent z by
      rw [hparent₂]; exact hypar]
    exact hup₂
  refine ⟨⟨?_, ?_, ?_⟩, ?_, ?_⟩
  · by_cases hc : c₁ = []
    · subst hc
      obtain ⟨rfl, rfl⟩ := hseg₁
      rw [if_pos rfl]
      exact hrest
    · have hpar := (hseg₁.mem hc).1
      rw [if_neg (by grind)]
      refine seg_append.mpr ⟨y, top, (hseg₁.retop hc (by grind) (fun q hq hqt => ?_) ?_).1, hrest⟩
      · exact (hsame q (by grind) (by grind) (fun _ => hqt)).trans (hframe q (by grind))
      · have htopc := (hseg₁.mem hc).2
        have hq := hlinks top (by grind)
        have hs := hframe top (by grind)
        exact ⟨by rw [hparent₂]; exact hpr (by grind), hs.left.trans hq.1, hs.right.trans hq.2.1⟩
  · by_cases hc : c₁ = []
    · subst hc
      obtain ⟨rfl, rfl⟩ := hseg₁
      rw [if_pos rfl]
      refine ⟨hchild.1.reparent (by grind) (fun q hq hqp => ?_) fun h0 => ?_, fun h0 => ?_⟩
      · exact (hsame q (by grind) (by grind) (fun _ => hqp)).trans (hframe q (by grind))
      · have hq := hlinks hole (by grind)
        have hs := hframe hole (by grind)
        exact ⟨hs.left.trans hq.1, hs.right.trans hq.2.1, hs.height.trans hq.2.2⟩
      · rw [hparent₂]
        exact hpr h0
    · have hpar := (hseg₁.mem hc).1
      have htopc := (hseg₁.mem hc).2
      rw [if_neg (by grind)]
      refine hchild.congr fun q hq => ?_
      exact (hsame q (by grind) (by grind) (by grind)).trans (hframe q (by grind))
  · simp only [ctxNodes_append, ctxNodes, Frame.label, side, nodup_append, nodup_cons,
      mem_append, mem_cons]
    grind
  · rw [hlink.body, hnodes, hbody]
  · rw [hlink.number, hnumber]

end ImpossibleOs.Ex
