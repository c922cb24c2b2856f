import ImpossibleOs.Ex.AvlDelete
import ImpossibleOs.Lib.Interleave

/-!
The balanced table over whole runs.

`AvlOk` is what holds of a table between the calls. Insertion and deletion keep
it, and a table with it answers lookups and enumerations as the set of its
elements does.
-/

namespace ImpossibleOs.Ex

open AvlTree AvlTree.Tree Function
open List hiding after cons nil

variable {α : Type} {cmp : α → α → Ordering} {m m' : Nodes α} {p q n x y z par hole : ℕ}
  {l r s u : AvlTree.Tree ℕ} {c : Context ℕ} {fuel : ℕ} {t t' : AvlTable α}

/-- A table with its tree: links, parents and heights, no node twice, balance, order and
number. -/
structure AvlOk (cmp : α → α → Ordering) (t : AvlTable α) (s : AvlTree.Tree ℕ) : Prop where
  child : Child t.nodes 0 t.root s
  nodup : s.toList.Nodup
  balanced : s.Balanced
  ordered : Ordered cmp t.nodes s.toList
  number : t.numberOfElements = UInt32.ofNat s.toList.length

theorem height_lt (h : s.toList.length < fuel) : s.height < fuel := by
  have := height_le_length s
  omega

theorem avlMin_spec (h : Rep m p s) (hs : s ≠ nil) (hfuel : s.height < fuel) :
    ∃ y c r, avlMin m fuel p = some y ∧ s = plug c (node nil y r) ∧ before c = [] := by
  induction s generalizing p fuel with
  | nil => exact absurd rfl hs
  | node l q r ihl ihr =>
    obtain ⟨rfl, hne, -, hl, hr⟩ := rep_node.mp h
    obtain ⟨fuel, rfl, hlf, -⟩ := fuel_of_node hfuel
    rw [avlMin]
    by_cases h0 : m.left p = 0
    · rw [if_neg (fun hn => hn.2 h0)]
      obtain rfl := hl.1.eq_zero_iff.mp h0
      exact ⟨p, [], r, rfl, rfl, rfl⟩
    · rw [if_pos ⟨hne, h0⟩]
      obtain ⟨y, c, r', hmin, rfl, hbefore⟩ :=
        ihl hl.1 (fun hnil => h0 (hl.1.eq_zero_iff.mpr hnil)) hlf
      refine ⟨y, c ++ [.left p r], r', hmin, by simp [plug_append, plug, Frame.fill], ?_⟩
      rw [before_append, hbefore]
      simp [before, Frame.before]

theorem avlMin_head (h : Rep m p s) (hfuel : s.height < fuel) :
    avlMin m fuel p = some (s.toList.head?.getD 0) := by
  by_cases hs : s = nil
  · subst hs
    rw [show p = 0 from h]
    cases fuel with
    | zero => simp [AvlTree.Tree.height] at hfuel
    | succ fuel => simp [avlMin, toList]
  · obtain ⟨y, c, r, hmin, rfl, hbefore⟩ := avlMin_spec h hs hfuel
    rw [hmin, toList_plug, hbefore]
    simp [toList]

/-! ### Enumeration -/

theorem length_le_ctxNodes (c : Context ℕ) : c.length ≤ (ctxNodes c).length := by
  induction c with
  | nil => exact le_rfl
  | cons f c ih =>
    simp only [ctxNodes, length_cons, length_append]
    omega

theorem climb_spec {root : ℕ} (h : Seg m c (m.parent hole) hole 0 root) (h0 : hole ≠ 0)
    (hout : hole ∉ ctxNodes c) (hnd : (ctxNodes c).Nodup) (hfuel : c.length < fuel) :
    climb m fuel hole = some ((after c).head?.getD 0) := by
  induction c generalizing hole fuel with
  | nil =>
    obtain ⟨fuel, rfl⟩ := Nat.exists_eq_add_of_lt hfuel
    rw [climb, if_neg (fun hn => hn.1 h.1), h.1]
    rfl
  | cons f c ih =>
    obtain ⟨fuel, rfl⟩ := Nat.exists_eq_add_of_lt hfuel
    obtain ⟨hpar, hne, haround, hrest⟩ := h
    simp only [ctxNodes, nodup_cons, nodup_append, mem_append] at hnd
    simp only [ctxNodes, mem_cons, mem_append, not_or] at hout
    rw [climb]
    cases f with
    | left q r =>
      simp only [Frame.label] at hpar
      have hright : m.right q ≠ hole := by
        intro heq
        have hmem := haround.2.1.mem (by rw [heq]; exact h0)
        exact hout.2.1 (heq ▸ hmem)
      rw [hpar, if_neg (fun hn => hright hn.2)]
      rfl
    | right l q =>
      simp only [Frame.label] at hpar hne
      rw [hpar, if_pos ⟨hne, haround.1⟩]
      have hless : c.length < c.length + 1 + fuel := by omega
      exact ih hrest hne (fun hq => hnd.1 (.inr hq)) hnd.2.2.1 hless

variable {st : AvlState α} {S : Set α} {pre suf : List ℕ} {buffer : α} {allocated : ℕ}
  {size : UInt32}

theorem avlSuccessor_spec (h : AvlOk cmp t s)
    (hs : s.toList = pre ++ x :: suf) (hfuel : s.toList.length < fuel) :
    avlSuccessor fuel t.nodes x = some (suf.head?.getD 0) := by
  obtain ⟨c, l, r, rfl, -, rfl⟩ := exists_plug hs
  obtain ⟨par, hole, hseg, hchild⟩ := h.child.unplug
  obtain ⟨rfl, hne, -, -, hr⟩ := rep_node.mp hchild.1
  have hnd := (plug_perm c (node l hole r)).nodup_iff.mp h.nodup
  have hlen := (plug_perm c (node l hole r)).length_eq
  simp only [length_append, toList, length_cons] at hlen
  unfold avlSuccessor
  by_cases h0 : t.nodes.right hole = 0
  · rw [if_neg (not_not.mpr h0)]
    obtain rfl := hr.1.eq_zero_iff.mp h0
    obtain ⟨hndc, -, hdisj⟩ := List.nodup_append.mp hnd
    have hcl := length_le_ctxNodes c
    rw [← hchild.2 hne] at hseg
    refine climb_spec hseg hne (fun hq => hdisj _ hq _ (by simp [toList]) rfl) hndc (by omega)
  · rw [if_pos h0]
    have hrl := height_le_length r
    rw [avlMin_head hr.1 (by omega)]
    have hrn : r.toList ≠ [] := ne_nil_of_mem (hr.1.mem h0)
    rw [head?_append_of_ne_nil _ hrn]

theorem enumerateRest_spec (h : AvlOk cmp t s) (hs : s.toList = pre ++ suf)
    (hnext : t.enumNext = suf.head?.getD 0) (hfuel : s.toList.length < fuel) {steps : ℕ}
    (hsteps : suf.length < steps) : enumerateRest fuel steps t = some (suf.map t.nodes.body) := by
  induction suf generalizing t pre steps with
  | nil =>
    obtain ⟨steps, rfl⟩ := Nat.exists_eq_add_of_lt hsteps
    simp only [head?_nil, Option.getD_none] at hnext
    simp [enumerateRest, rtlEnumerate, hnext]
  | cons q suf ih =>
    obtain ⟨steps, rfl⟩ := Nat.exists_eq_add_of_lt hsteps
    simp only [head?_cons, Option.getD_some] at hnext
    have hq0 : q ≠ 0 := by
      rintro rfl
      exact h.child.1.zero_notMem (by rw [hs]; simp)
    have hsucc := avlSuccessor_spec h hs hfuel
    have hs' : s.toList = (pre ++ [q]) ++ suf := by simp [hs]
    have hless : suf.length < suf.length + 1 + steps := by omega
    have hrest := ih (t := { t with enumNext := suf.head?.getD 0 })
      ⟨h.child, h.nodup, h.balanced, h.ordered, h.number⟩ hs' rfl hless
    rw [length_cons, enumerateRest, rtlEnumerate]
    simp [hnext, hq0, hsucc, hrest]

theorem enumerateAll_spec (h : AvlOk cmp t s) (hfuel : s.toList.length < fuel) :
    enumerateAll fuel t = some (s.toList.map t.nodes.body) := by
  have hmin := avlMin_head h.child.1 (height_lt hfuel)
  have hrestart : enumerateAll fuel t =
      enumerateRest fuel (fuel + 1) { t with enumNext := s.toList.head?.getD 0 } := by
    simp [enumerateAll, enumerateRest, rtlEnumerate, hmin]
  rw [hrestart]
  have hs : s.toList = [] ++ s.toList := rfl
  exact enumerateRest_spec (t := { t with enumNext := s.toList.head?.getD 0 })
    ⟨h.child, h.nodup, h.balanced, h.ordered, h.number⟩ hs rfl hfuel (by omega)

section

variable [Std.TransCmp cmp]

theorem ordered_insert {nn : ℕ} (hord : Ordered cmp m s.toList)
    (hnew : ∀ q ∈ s.toList, cmp (m.body nn) (m.body q) ≠ .eq) :
    Ordered cmp m (s.insert (goesLeft cmp m nn) nn).toList := by
  have hgo : s.toList.Pairwise fun a b => goesLeft cmp m nn a = true →
      goesLeft cmp m nn b = true := by
    refine hord.imp fun {a b} hab ha => ?_
    simp only [goesLeft, beq_iff_eq] at ha ⊢
    exact Std.TransCmp.lt_trans ha hab
  obtain ⟨before, after, hsplit, hins, hbefore, hafter⟩ := toList_insert nn hgo
  rw [hins]
  have hord' := hord
  rw [hsplit] at hord'
  obtain ⟨hb, ha, hcross⟩ := List.pairwise_append.mp hord'
  have hlow : ∀ q ∈ before, cmp (m.body q) (m.body nn) = .lt := by
    intro q hq
    have hne := hnew q (by rw [hsplit]; exact mem_append_left _ hq)
    have hnl := hbefore q hq
    simp only [goesLeft, beq_eq_false_iff_ne] at hnl
    cases hc : cmp (m.body nn) (m.body q) with
    | lt => exact absurd hc hnl
    | eq => exact absurd hc hne
    | gt => exact Std.OrientedCmp.lt_of_gt hc
  have hhigh : ∀ q ∈ after, cmp (m.body nn) (m.body q) = .lt := by
    intro q hq
    simpa [goesLeft] using hafter q hq
  refine List.pairwise_append.mpr ⟨hb, List.pairwise_cons.mpr ⟨hhigh, ha⟩, fun a hma b hmb => ?_⟩
  rcases List.mem_cons.mp hmb with rfl | hmb
  · exact hlow a hma
  · exact hcross a hma b hmb

theorem newNode_same {nn : ℕ} (h : q ≠ nn) : Same m (newNode m nn buffer) q := by
  constructor <;> simp [newNode, h]

theorem rtlInsert_unchanged (h : AvlOk cmp t s) (hfuel : s.toList.length < fuel)
    (hno : (size = 0 ∨ size > 0xFFFFFFFF - linksSize) ∨
      (∃ q ∈ s.toList, cmp buffer (t.nodes.body q) = .eq) ∨ allocated = 0) :
    ∃ z, rtlInsert cmp fuel t buffer size allocated = some (t, z, false) := by
  unfold rtlInsert
  by_cases hsize : size = 0 ∨ size > 0xFFFFFFFF - linksSize
  · exact ⟨0, by rw [if_pos hsize]⟩
  rw [if_neg hsize]
  obtain ⟨z, hz, hfound⟩ := avlFind_spec buffer h.child.1 h.ordered (height_lt hfuel)
  rcases hfound with ⟨rfl, hnone⟩ | ⟨hmem, heq⟩
  · rcases hno.resolve_left hsize with ⟨q, hq, hqe⟩ | rfl
    · exact absurd hqe (hnone q hq)
    · exact ⟨0, by simp [hz]⟩
  · have hz0 : z ≠ 0 := fun h0 => h.child.1.zero_notMem (h0 ▸ hmem)
    exact ⟨z, by simp [hz, hz0]⟩

theorem rtlInsert_new (h : AvlOk cmp t s) (hfuel : s.toList.length < fuel)
    (hsize : ¬ (size = 0 ∨ size > 0xFFFFFFFF - linksSize))
    (hnew : ∀ q ∈ s.toList, cmp buffer (t.nodes.body q) ≠ .eq) (ha0 : allocated ≠ 0)
    (hfresh : allocated ∉ s.toList) :
    ∃ t' s', rtlInsert cmp fuel t buffer size allocated = some (t', allocated, true) ∧
      AvlOk cmp t' s' ∧ s'.toList.Perm (allocated :: s.toList) ∧
      t'.nodes.body = update t.nodes.body allocated buffer := by
  have hsame : ∀ q ∈ s.toList, Same t.nodes (newNode t.nodes allocated buffer) q := by
    intro q hq
    refine newNode_same ?_
    rintro rfl
    exact hfresh hq
  have hrep := h.child.1.congr hsame
  have hbodies : ∀ q ∈ s.toList, (newNode t.nodes allocated buffer).body q = t.nodes.body q := by
    intro q hq
    have hne : q ≠ allocated := by
      rintro rfl
      exact hfresh hq
    exact update_of_ne hne _ _
  have hself : (newNode t.nodes allocated buffer).body allocated = buffer :=
    update_self _ _ _
  have hord : Ordered cmp (newNode t.nodes allocated buffer) s.toList := by
    refine List.Pairwise.imp_of_mem (fun {a b} hma hmb hab => ?_) h.ordered
    rw [hbodies a hma, hbodies b hmb]
    exact hab
  have hfields : (newNode t.nodes allocated buffer).left allocated = 0 ∧
      (newNode t.nodes allocated buffer).right allocated = 0 ∧
      (newNode t.nodes allocated buffer).height allocated = 1 := by
    simp [newNode]
  have hbody : (newNode t.nodes allocated buffer).body =
      update t.nodes.body allocated buffer := rfl
  generalize hm : newNode t.nodes allocated buffer = m₀ at *
  obtain ⟨m₁, root, hins, hturn⟩ := avlInsertRec_spec cmp ha0 hfields hrep h.nodup hfresh
    (height_lt hfuel)
  have hnew₀ : ∀ q ∈ s.toList, cmp (m₀.body allocated) (m₀.body q) ≠ .eq := by
    intro q hq
    rw [hself, hbodies q hq]
    exact hnew q hq
  have hordered := ordered_insert hord hnew₀
  obtain ⟨hbal, -⟩ := balanced_insert (goesLeft cmp m₀ allocated) allocated h.balanced
  have hperm := perm_insert (goesLeft cmp m₀ allocated) allocated s
  generalize s.insert (goesLeft cmp m₀ allocated) allocated = s' at hturn hordered hbal hperm
  have hnd : s'.toList.Nodup := hperm.nodup_iff.mpr (List.nodup_cons.mpr ⟨hfresh, h.nodup⟩)
  have hfind : avlFind cmp t.nodes buffer fuel t.root = some 0 := by
    obtain ⟨z, hz, hfound⟩ := avlFind_spec buffer h.child.1 h.ordered (height_lt hfuel)
    rcases hfound with ⟨rfl, -⟩ | ⟨hmem, heq⟩
    · exact hz
    · exact absurd heq (hnew z hmem)
  refine ⟨⟨m₁.setParent root 0, root, t.numberOfElements + 1, t.enumNext⟩, s', ?_,
    ⟨⟨?_, fun h0 => ?_⟩, hnd, hbal, ?_, ?_⟩, hperm, ?_⟩
  · unfold rtlInsert
    rw [if_neg hsize]
    simp [hfind, ha0, hm, hins]
  · refine hturn.rep.reparent hnd (fun q hq hqr => ?_) fun h0 => ?_
    · constructor <;> simp [hqr]
    · simp
  · simp
  · have hb : (m₁.setParent root 0).body = m₀.body := hturn.body
    show Ordered cmp (m₁.setParent root 0) s'.toList
    simp only [Ordered, hb]
    exact hordered
  · show t.numberOfElements + 1 = _
    rw [hperm.length_eq, length_cons, h.number]
    simp
  · show m₁.body = _
    rw [hturn.body, hbody]

end

/-- What a deletion of the node `z` leaves. -/
structure Deleted (cmp : α → α → Ordering) (t t' : AvlTable α) (s s' : AvlTree.Tree ℕ) (z : ℕ) :
    Prop where
  ok : AvlOk cmp t' s'
  perm : s.toList.Perm (z :: s'.toList)
  body : t'.nodes.body = t.nodes.body

theorem deleted_of_rebuild {s' : AvlTree.Tree ℕ} (h : AvlOk cmp t s)
    (hs : s.toList = pre ++ z :: suf) (hs' : s'.toList = pre ++ suf) (hbal : s'.Balanced)
    (hchild : Child t'.nodes 0 t'.root s') (hbody : t'.nodes.body = t.nodes.body)
    (hnumber : t'.numberOfElements = t.numberOfElements) :
    Deleted cmp t { t' with numberOfElements := t'.numberOfElements - 1, enumNext := 0 }
      s s' z := by
  have hsub : s'.toList.Sublist s.toList := by
    rw [hs, hs']
    exact (sublist_cons_self z suf).append_left pre
  have hperm : s.toList.Perm (z :: s'.toList) := by
    rw [hs, hs']
    exact perm_middle
  refine ⟨⟨hchild, h.nodup.sublist hsub, hbal, ?_, ?_⟩, hperm, hbody⟩
  · show Ordered cmp t'.nodes s'.toList
    simp only [Ordered, hbody]
    exact h.ordered.sublist hsub
  · show t'.numberOfElements - 1 = _
    rw [hnumber, h.number, hperm.length_eq, length_cons]
    simp

theorem deleteNode_single (h : AvlOk cmp t s) (hs : s = plug c (node l z r))
    (hu : (l = nil ∧ r = u) ∨ (r = nil ∧ l = u)) (hfuel : s.toList.length < fuel) :
    ∃ t' s', retrace fuel (spliceOut t z) (t.nodes.parent z) = some t' ∧
      Deleted cmp t { t' with numberOfElements := t'.numberOfElements - 1, enumNext := 0 }
        s s' z := by
  subst hs
  obtain ⟨par, hole, hseg, hchild⟩ := h.child.unplug
  obtain ⟨rfl, hne, -, -⟩ := rep_node.mp hchild.1
  have hnd := (plug_perm c (node l hole r)).nodup_iff.mp h.nodup
  have hlen := (plug_perm c (node l hole r)).length_eq
  have hcl := length_le_ctxNodes c
  simp only [length_append] at hlen
  have hless : c.length < fuel := by omega
  obtain ⟨x, hsplice⟩ := spliceOut_spec ⟨hseg, hchild, hnd⟩ hu
  obtain ⟨t', hrun, hchild', hbody, hnumber⟩ := retrace_spec hsplice.place hless
  refine ⟨t', rebuild c u, by rw [hchild.2 hne]; exact hrun, ?_⟩
  have hfits : Fits (node l hole r) u := by
    have hb := balanced_of_plug h.balanced
    obtain ⟨hbl, hbr, -, -⟩ := hb
    rcases hu with ⟨rfl, rfl⟩ | ⟨rfl, rfl⟩
    · refine ⟨hbr, .inr ?_⟩
      have := height_nonneg r
      simp only [AvlTree.Tree.height]
      omega
    · refine ⟨hbl, .inr ?_⟩
      have := height_nonneg l
      simp only [AvlTree.Tree.height]
      omega
  have hlists : (plug c (node l hole r)).toList = (before c ++ l.toList) ++ hole :: (r.toList ++
      after c) ∧ (rebuild c u).toList = (before c ++ l.toList) ++ (r.toList ++ after c) := by
    rw [toList_plug, toList_rebuild]
    rcases hu with ⟨rfl, rfl⟩ | ⟨rfl, rfl⟩
    · simp [toList]
    · simp [toList]
  exact deleted_of_rebuild h hlists.1 hlists.2 (fits_rebuild h.balanced hfits).balanced hchild'
    (hbody.trans hsplice.body) (hnumber.trans hsplice.number)

theorem deleteNode_double (h : AvlOk cmp t s) (hs : s = plug c (node l z r)) (hr : r ≠ nil)
    (hfuel : s.toList.length < fuel) :
    ∃ y t' s', avlMin t.nodes fuel (t.nodes.right z) = some y ∧ y ≠ z ∧
      retrace fuel (takePlace (spliceOut t y) y z)
        (if t.nodes.parent y = z then y else t.nodes.parent y) = some t' ∧
      Deleted cmp t { t' with numberOfElements := t'.numberOfElements - 1, enumNext := 0 }
        s s' z := by
  subst hs
  have hrep : Rep t.nodes (t.nodes.right z) r := by
    obtain ⟨par, hole, -, hchild⟩ := h.child.unplug
    obtain ⟨rfl, -, -, -, hright⟩ := rep_node.mp hchild.1
    exact hright.1
  have hrl : r.height < fuel := by
    have hlen := (plug_perm c (node l z r)).length_eq
    have := height_le_length r
    simp only [length_append, toList, length_cons] at hlen
    omega
  obtain ⟨y, c', ry, hmin, rfl, hbefore⟩ := avlMin_spec hrep hr hrl
  -- the place of the successor
  have hplug : plug c (node l z (plug c' (node nil y ry))) =
      plug (c' ++ .right l z :: c) (node nil y ry) := by
    rw [plug_append]
    rfl
  rw [hplug] at h hfuel ⊢
  obtain ⟨par, hole, hseg, hchild⟩ := h.child.unplug
  obtain ⟨rfl, hy0, -, -⟩ := rep_node.mp hchild.1
  have hnd := (plug_perm (c' ++ .right l z :: c) (node nil hole ry)).nodup_iff.mp h.nodup
  have hlen := (plug_perm (c' ++ .right l z :: c) (node nil hole ry)).length_eq
  have hcl := length_le_ctxNodes (c' ++ .right l z :: c)
  simp only [length_append, length_cons] at hlen hcl
  obtain ⟨x, hsplice⟩ := spliceOut_spec ⟨hseg, hchild, hnd⟩ (.inl ⟨rfl, rfl⟩)
  have hout : hole ∉ ctxNodes (c' ++ .right l z :: c) ++ ry.toList := by
    simp only [toList, nil_append] at hnd
    have hmiddle := List.perm_middle.nodup_iff.mp hnd
    exact (List.nodup_cons.mp hmiddle).1
  have hyz : hole ≠ z := by
    rintro rfl
    refine hout (mem_append_left _ ?_)
    rw [ctxNodes_append]
    exact mem_append_right _ mem_cons_self
  obtain ⟨hplace, hbody₂, hnumber₂⟩ := takePlace_spec hsplice.place hy0 hout
  have hless : (c' ++ .right l hole :: c).length < fuel := by
    simp only [length_append, length_cons]
    omega
  obtain ⟨t', hrun, hchild', hbody, hnumber⟩ := retrace_spec hplace hless
  refine ⟨hole, t', rebuild (c' ++ .right l hole :: c) ry, hmin, hyz,
    by rw [hchild.2 hy0]; exact hrun, ?_⟩
  have hfits : Fits (node nil hole ry) ry := by
    obtain ⟨-, hbr, -, -⟩ := balanced_of_plug h.balanced
    refine ⟨hbr, .inr ?_⟩
    have := height_nonneg ry
    simp only [AvlTree.Tree.height]
    omega
  have hlists : (plug (c' ++ .right l z :: c) (node nil hole ry)).toList =
        (before c ++ l.toList) ++ z :: (hole :: (ry.toList ++ after c' ++ after c)) ∧
      (rebuild (c' ++ .right l hole :: c) ry).toList =
        (before c ++ l.toList) ++ (hole :: (ry.toList ++ after c' ++ after c)) := by
    rw [toList_plug, toList_rebuild, before_append, before_append, after_append, after_append,
      hbefore]
    simp [before, after, Frame.before, Frame.after, toList]
  exact deleted_of_rebuild h hlists.1 hlists.2
    (fits_rebuild (balanced_relabel h.balanced) hfits).balanced hchild'
    ((hbody.trans hbody₂).trans hsplice.body) ((hnumber.trans hnumber₂).trans hsplice.number)

variable [Std.TransCmp cmp]

theorem rtlDelete_spec (h : AvlOk cmp t s) (hfuel : s.toList.length < fuel) (key : α) :
    (rtlDelete cmp fuel t key = some (t, 0) ∧ ∀ q ∈ s.toList, cmp key (t.nodes.body q) ≠ .eq) ∨
      ∃ t' s' z, rtlDelete cmp fuel t key = some (t', z) ∧ z ≠ 0 ∧
        cmp key (t.nodes.body z) = .eq ∧ Deleted cmp t t' s s' z := by
  obtain ⟨z, hz, hfound⟩ := avlFind_spec key h.child.1 h.ordered (height_lt hfuel)
  rcases hfound with ⟨rfl, hnone⟩ | ⟨hmem, heq⟩
  · exact .inl ⟨by simp [rtlDelete, hz], hnone⟩
  · right
    have hz0 : z ≠ 0 := fun h0 => h.child.1.zero_notMem (h0 ▸ hmem)
    obtain ⟨pre, suf, hsplit⟩ := append_of_mem hmem
    obtain ⟨c, l, r, hs, -, -⟩ := exists_plug hsplit
    have hkids : Rep t.nodes (t.nodes.left z) l ∧ Rep t.nodes (t.nodes.right z) r := by
      have hchild := h.child
      rw [hs] at hchild
      obtain ⟨par, hole, -, hchild⟩ := hchild.unplug
      obtain ⟨rfl, -, -, hl, hr⟩ := rep_node.mp hchild.1
      exact ⟨hl.1, hr.1⟩
    by_cases htwo : t.nodes.left z ≠ 0 ∧ t.nodes.right z ≠ 0
    · have hr : r ≠ nil := fun hnil => htwo.2 (hkids.2.eq_zero_iff.mpr hnil)
      obtain ⟨y, t', s', hmin, hyz, hrun, hdel⟩ := deleteNode_double h hs hr hfuel
      refine ⟨_, s', z, ?_, hz0, heq, hdel⟩
      simp [rtlDelete, hz, hz0, htwo, hmin, hyz, hrun]
    · have hu : ∃ u, (l = nil ∧ r = u) ∨ (r = nil ∧ l = u) := by
        by_cases h0 : t.nodes.left z = 0
        · exact ⟨r, .inl ⟨hkids.1.eq_zero_iff.mp h0, rfl⟩⟩
        · have hr0 : t.nodes.right z = 0 := by
            by_contra hn
            exact htwo ⟨h0, hn⟩
          exact ⟨l, .inr ⟨hkids.2.eq_zero_iff.mp hr0, rfl⟩⟩
      obtain ⟨u, hu⟩ := hu
      obtain ⟨t', s', hrun, hdel⟩ := deleteNode_single h hs hu hfuel
      refine ⟨_, s', z, ?_, hz0, heq, hdel⟩
      simp [rtlDelete, hz, hz0, htwo, hrun]

/-! ### Runs -/

def elements (t : AvlTable α) (s : AvlTree.Tree ℕ) : List α := s.toList.map t.nodes.body

open Classical in
noncomputable def setExec (cmp : α → α → Ordering) (S : Set α) : AvlCall α → Set α × Bool
  | .insert buffer size allocated =>
    if (size = 0 ∨ size > 0xFFFFFFFF - linksSize) ∨ (∃ y ∈ S, cmp buffer y = .eq) ∨
      allocated = 0 then (S, false) else (Set.insert buffer S, true)
  | .delete key => ({y ∈ S | cmp key y ≠ .eq}, decide (∃ y ∈ S, cmp key y = .eq))

/-- The allocation routine does not hand out a node that is in use. -/
def Fresh (s : AvlState α) : AvlCall α → Prop
  | .insert _ _ allocated => allocated ∉ s.live
  | .delete _ => True

/-- The table has the elements of the set, and the nodes in use are its nodes. -/
structure Holds (cmp : α → α → Ordering) (st : AvlState α) (s : AvlTree.Tree ℕ)
    (S : Set α) : Prop where
  ok : AvlOk cmp st.table s
  live : st.live.Perm s.toList
  elements : ∀ y, y ∈ elements st.table s ↔ y ∈ S

omit [Std.TransCmp cmp] in
theorem Holds.mem_iff (h : Holds cmp st s S) {P : α → Prop} :
    (∃ y ∈ S, P y) ↔ ∃ q ∈ s.toList, P (st.table.nodes.body q) := by
  constructor
  · rintro ⟨y, hy, hP⟩
    obtain ⟨q, hq, rfl⟩ := List.mem_map.mp ((h.elements y).mpr hy)
    exact ⟨q, hq, hP⟩
  · rintro ⟨q, hq, hP⟩
    exact ⟨_, (h.elements _).mp (mem_map_of_mem hq), hP⟩

theorem Holds.insert (h : Holds cmp st s S) (hfuel : s.toList.length < fuel)
    (hfresh : allocated ∉ st.live) : ∃ st' s', avlExec cmp fuel st (.insert buffer size allocated) =
        some (st', (setExec cmp S (.insert buffer size allocated)).2) ∧
      Holds cmp st' s' (setExec cmp S (.insert buffer size allocated)).1 ∧
      s'.toList.length ≤ s.toList.length + 1 := by
  by_cases hno : (size = 0 ∨ size > 0xFFFFFFFF - linksSize) ∨ (∃ y ∈ S, cmp buffer y = .eq) ∨
      allocated = 0
  · have hno' := hno
    rw [h.mem_iff] at hno'
    obtain ⟨z, hz⟩ := rtlInsert_unchanged h.ok hfuel hno'
    refine ⟨st, s, ?_, ?_, by omega⟩
    · simp [avlExec, hz, setExec, if_pos hno]
    · simpa [setExec, if_pos hno] using h
  · have hset : setExec cmp S (.insert buffer size allocated) = (Set.insert buffer S, true) :=
      if_neg hno
    obtain ⟨hsize, hrest⟩ := not_or.mp hno
    obtain ⟨hnew, ha0⟩ := not_or.mp hrest
    rw [h.mem_iff] at hnew
    have hout : allocated ∉ s.toList := fun hm => hfresh (h.live.mem_iff.mpr hm)
    have hnew' : ∀ q ∈ s.toList, cmp buffer (st.table.nodes.body q) ≠ .eq :=
      fun q hq heq => hnew ⟨q, hq, heq⟩
    obtain ⟨t', s', hins, hok, hperm, hbody⟩ := rtlInsert_new h.ok hfuel hsize hnew' ha0 hout
    refine ⟨⟨t', allocated :: st.live⟩, s', by simp [avlExec, hins, hset], ?_, ?_⟩
    · rw [hset]
      refine ⟨hok, (h.live.cons allocated).trans hperm.symm, fun y => ?_⟩
      have hold : s.toList.map t'.nodes.body = s.toList.map st.table.nodes.body := by
        refine map_congr_left fun q hq => ?_
        have hne : q ≠ allocated := by
          rintro rfl
          exact hout hq
        rw [hbody]
        exact update_of_ne hne _ _
      show y ∈ s'.toList.map t'.nodes.body ↔ y = buffer ∨ y ∈ S
      rw [(hperm.map t'.nodes.body).mem_iff, map_cons, mem_cons, hold, hbody,
        update_self, ← h.elements]
      exact Iff.rfl
    · rw [hperm.length_eq, length_cons]

theorem others_ne {key : α} {nodes rest : List ℕ} (hord : Ordered cmp m nodes)
    (hperm : nodes.Perm (z :: rest)) (heq : cmp key (m.body z) = .eq) :
    ∀ q ∈ rest, cmp key (m.body q) ≠ .eq := by
  have hdistinct : nodes.Pairwise fun a b => cmp (m.body a) (m.body b) ≠ .eq := by
    refine hord.imp fun {a b} hab => ?_
    rw [hab]
    exact nofun
  have hsymm : ∀ {a b : ℕ}, cmp (m.body a) (m.body b) ≠ .eq → cmp (m.body b) (m.body a) ≠ .eq :=
    fun hab hba => hab (Std.OrientedCmp.eq_symm hba)
  have hcons := (hperm.pairwise_iff hsymm).mp hdistinct
  intro q hq
  rw [Std.TransCmp.congr_left heq]
  exact (List.pairwise_cons.mp hcons).1 q hq

theorem Holds.delete (h : Holds cmp st s S) (hfuel : s.toList.length < fuel) (key : α) :
    ∃ st' s', avlExec cmp fuel st (.delete key) = some (st', (setExec cmp S (.delete key)).2) ∧
      Holds cmp st' s' (setExec cmp S (.delete key)).1 ∧
      s'.toList.length ≤ s.toList.length + 1 := by
  have hres : (setExec cmp S (.delete key)).2 = true ↔
      ∃ q ∈ s.toList, cmp key (st.table.nodes.body q) = .eq := by
    rw [← h.mem_iff (P := fun y => cmp key y = .eq)]
    simp [setExec]
  rcases rtlDelete_spec h.ok hfuel key with ⟨hdel, hnone⟩ | ⟨t', s', z, hdel, hz0, heq, hdeleted⟩
  · have h0 : 0 ∉ st.live := fun hm => h.ok.child.1.zero_notMem (h.live.mem_iff.mp hm)
    refine ⟨st, s, ?_, ⟨h.ok, h.live, fun y => ?_⟩, by omega⟩
    · have hfalse : (setExec cmp S (.delete key)).2 = false := by
        rw [Bool.eq_false_iff, Ne, hres]
        rintro ⟨q, hq, heq⟩
        exact hnone q hq heq
      simp [avlExec, hdel, erase_of_not_mem h0, hfalse]
    · show _ ↔ y ∈ S ∧ cmp key y ≠ .eq
      rw [← h.elements]
      refine ⟨fun hy => ⟨hy, ?_⟩, And.left⟩
      obtain ⟨q, hq, rfl⟩ := List.mem_map.mp hy
      exact hnone q hq
  · have hzmem : z ∈ s.toList := hdeleted.perm.mem_iff.mpr mem_cons_self
    refine ⟨⟨t', st.live.erase z⟩, s', ?_, ⟨hdeleted.ok, ?_, fun y => ?_⟩, ?_⟩
    · have htrue := hres.mpr ⟨z, hzmem, heq⟩
      simp [avlExec, hdel, hz0, htrue]
    · have herase := (h.live.trans hdeleted.perm).erase z
      simpa using herase
    · show y ∈ s'.toList.map t'.nodes.body ↔ y ∈ S ∧ cmp key y ≠ .eq
      rw [hdeleted.body, ← h.elements]
      have hmem : y ∈ Ex.elements st.table s ↔
          y = st.table.nodes.body z ∨ y ∈ s'.toList.map st.table.nodes.body := by
        rw [Ex.elements, (hdeleted.perm.map _).mem_iff, map_cons, mem_cons]
      have hothers := others_ne h.ok.ordered hdeleted.perm heq
      rw [hmem]
      constructor
      · intro hy
        obtain ⟨q, hq, rfl⟩ := List.mem_map.mp hy
        exact ⟨.inr hy, hothers q hq⟩
      · rintro ⟨rfl | hy, hne⟩
        · exact absurd heq hne
        · exact hy
    · have := hdeleted.perm.length_eq
      simp only [length_cons] at this
      omega

theorem avlRun_holds {calls : List (AvlCall α)}
    (h : Holds cmp st s S) (hfuel : s.toList.length + calls.length < fuel)
    (hfresh : Refine.Along (avlExec cmp fuel) Fresh st calls) :
    ∃ st' s', Refine.run (avlExec cmp fuel) st calls =
        some (st', (Refine.runSpec (setExec cmp) S calls).2) ∧
      Holds cmp st' s' (Refine.runSpec (setExec cmp) S calls).1 ∧
      s'.toList.length ≤ s.toList.length + calls.length := by
  induction calls generalizing st s S with
  | nil => exact ⟨st, s, rfl, h, by simp⟩
  | cons call calls ih =>
    rw [length_cons] at hfuel
    have hstep : ∃ st₁ s₁, avlExec cmp fuel st call = some (st₁, (setExec cmp S call).2) ∧
        Holds cmp st₁ s₁ (setExec cmp S call).1 ∧ s₁.toList.length ≤ s.toList.length + 1 := by
      cases call with
      | insert buffer size allocated => exact h.insert (by omega) hfresh.1
      | delete key => exact h.delete (by omega) key
    obtain ⟨st₁, s₁, hexec, h₁, hlen₁⟩ := hstep
    obtain ⟨st', s', hrun, h', hlen'⟩ := ih h₁ (by omega) (hfresh.2 _ hexec)
    refine ⟨st', s', ?_, h', ?_⟩
    · simp [Refine.run, Refine.runSpec, hexec, hrun]
    · rw [length_cons]
      omega

/-! ### The table -/

structure AvlCorrect (cmp : α → α → Ordering) (fuel : ℕ) (t : AvlTable α) (S : Set α) : Prop where
  tree : ∃ s, AvlOk cmp t s ∧ ∀ y, y ∈ elements t s ↔ y ∈ S
  lookup : ∀ key, ∃ z, rtlLookup cmp fuel t key = some z ∧
    ((z = 0 ∧ ∀ y ∈ S, cmp key y ≠ .eq) ∨
      (z ≠ 0 ∧ t.nodes.body z ∈ S ∧ cmp key (t.nodes.body z) = .eq))
  unchanged : ∀ buffer size allocated, ((∃ y ∈ S, cmp buffer y = .eq) ∨ allocated = 0) →
    ∃ z, rtlInsert cmp fuel t buffer size allocated = some (t, z, false)
  enumerate : ∃ l, enumerateAll fuel t = some l ∧ l.Pairwise (fun a b => cmp a b = .lt) ∧
    ∀ y, y ∈ l ↔ y ∈ S

theorem Holds.lookup (h : Holds cmp st s S) (key : α) (hfuel : s.height < fuel) :
    ∃ z, rtlLookup cmp fuel st.table key = some z ∧
      ((z = 0 ∧ ∀ y ∈ S, cmp key y ≠ .eq) ∨
        (z ≠ 0 ∧ st.table.nodes.body z ∈ S ∧ cmp key (st.table.nodes.body z) = .eq)) := by
  obtain ⟨z, hz, hfound⟩ := avlFind_spec key h.ok.child.1 h.ok.ordered hfuel
  refine ⟨z, hz, hfound.imp (fun hf => ⟨hf.1, fun y hy heq => ?_⟩) fun hf => ⟨?_, ?_, hf.2⟩⟩
  · obtain ⟨q, hq, hqe⟩ := (h.mem_iff (P := fun y => cmp key y = .eq)).mp ⟨y, hy, heq⟩
    exact hf.2 q hq hqe
  · rintro rfl
    exact h.ok.child.1.zero_notMem hf.1
  · exact (h.elements _).mp (mem_map_of_mem hf.1)

theorem Holds.correct (h : Holds cmp st s S)
    (hfuel : s.toList.length < fuel) : AvlCorrect cmp fuel st.table S := by
  refine ⟨⟨s, h.ok, h.elements⟩, fun key => h.lookup key (height_lt hfuel),
    fun buffer size allocated hno => ?_, ⟨_, enumerateAll_spec h.ok hfuel, ?_, h.elements⟩⟩
  · rw [h.mem_iff] at hno
    exact rtlInsert_unchanged h.ok hfuel (.inr hno)
  · exact List.pairwise_map.mpr h.ok.ordered

omit [Std.TransCmp cmp] in
theorem holds_new (cmp : α → α → Ordering) (nodes : Nodes α) :
    Holds cmp ⟨rtlInitialize nodes, []⟩ nil ∅ := by
  refine ⟨⟨⟨rfl, fun h0 => absurd rfl h0⟩, nodup_nil, trivial, Pairwise.nil, rfl⟩,
    Perm.refl _, fun y => ?_⟩
  simp [elements, toList]

/-- Every run of insertions and deletions on a new table, in which the allocation routine may
fail at any insertion, returns, reports what the set of elements does, and leaves a correct
table. -/
theorem avlRun_correct (cmp : α → α → Ordering) [Std.TransCmp cmp] (nodes : Nodes α)
    (calls : List (AvlCall α)) (fuel : ℕ) (hfuel : calls.length < fuel)
    (hfresh : Refine.Along (avlExec cmp fuel) Fresh ⟨rtlInitialize nodes, []⟩ calls) :
    ∃ st, Refine.run (avlExec cmp fuel) ⟨rtlInitialize nodes, []⟩ calls =
        some (st, (Refine.runSpec (setExec cmp) ∅ calls).2) ∧
      AvlCorrect cmp fuel st.table (Refine.runSpec (setExec cmp) ∅ calls).1 := by
  obtain ⟨st, s, hrun, hholds, hlen⟩ := avlRun_holds (holds_new cmp nodes)
    (by simpa [toList] using hfuel) hfresh
  refine ⟨st, hrun, hholds.correct ?_⟩
  simp only [toList, List.length_nil] at hlen
  omega

def noNodes : Nodes ℕ := ⟨fun _ => 0, fun _ => 0, fun _ => 0, fun _ => 0, fun _ => 0⟩

/-- The third insertion rotates, the next two fail without memory and at an element that is there,
and the deletion is of the root, which has two children. -/
def rotatingCalls : List (AvlCall ℕ) :=
  [.insert 1 4 100, .insert 2 4 101, .insert 3 4 102, .insert 4 4 0, .insert 2 4 103,
    .insert 4 4 104, .delete 2]

theorem rotatingCalls_fresh :
    Refine.Along (avlExec compare 8) Fresh ⟨rtlInitialize noNodes, []⟩ rotatingCalls := by
  iterate 6 refine Refine.along_cons (show _ ∉ AvlState.live _ by decide) rfl ?_
  exact ⟨trivial, fun _ _ => trivial⟩

theorem avlRun_correct_small : ∃ st, Refine.run (avlExec compare 8) ⟨rtlInitialize noNodes, []⟩
        rotatingCalls = some (st, (Refine.runSpec (setExec compare) ∅ rotatingCalls).2) ∧
      AvlCorrect compare 8 st.table (Refine.runSpec (setExec compare) ∅ rotatingCalls).1 :=
  avlRun_correct compare noNodes rotatingCalls 8 (by decide) rotatingCalls_fresh

/-- After every run on a new table a lookup ends within `2 * k` turns, where fewer than
`2 ^ k - 1` nodes are in use, and finds what the set of elements has. -/
theorem avlRun_logarithmic (cmp : α → α → Ordering) [Std.TransCmp cmp] (nodes : Nodes α)
    (calls : List (AvlCall α)) (fuel : ℕ) (hfuel : calls.length < fuel)
    (hfresh : Refine.Along (avlExec cmp fuel) Fresh ⟨rtlInitialize nodes, []⟩ calls) :
    ∃ st, Refine.run (avlExec cmp fuel) ⟨rtlInitialize nodes, []⟩ calls =
        some (st, (Refine.runSpec (setExec cmp) ∅ calls).2) ∧
      let S := (Refine.runSpec (setExec cmp) ∅ calls).1
      ∀ key k, st.live.length + 1 < 2 ^ k → ∃ z, rtlLookup cmp (2 * k) st.table key = some z ∧
        ((z = 0 ∧ ∀ y ∈ S, cmp key y ≠ .eq) ∨
          (z ≠ 0 ∧ st.table.nodes.body z ∈ S ∧ cmp key (st.table.nodes.body z) = .eq)) := by
  obtain ⟨st, s, hrun, hholds, -⟩ := avlRun_holds (holds_new cmp nodes)
    (by simpa [toList] using hfuel) hfresh
  refine ⟨st, hrun, fun key k hk => hholds.lookup key ?_⟩
  obtain ⟨h, hh⟩ := Int.eq_ofNat_of_zero_le (height_nonneg s)
  have hpow := two_pow_height_le hholds.ok.balanced hh
  rw [← hholds.live.length_eq] at hpow
  have hlog := (Nat.pow_lt_pow_iff_right Nat.one_lt_two).mp (hpow.trans_lt hk)
  omega

/-- Three elements are left, and six turns are enough. -/
theorem avlRun_logarithmic_small : ∃ st, Refine.run (avlExec compare 8)
      ⟨rtlInitialize noNodes, []⟩ rotatingCalls =
        some (st, (Refine.runSpec (setExec compare) ∅ rotatingCalls).2) ∧
    ∀ key, ∃ z, rtlLookup compare 6 st.table key = some z := by
  have hlive : (Refine.run (avlExec compare 8) ⟨rtlInitialize noNodes, []⟩ rotatingCalls).map
      (fun p => p.1.live) = some [104, 102, 100] := by decide
  obtain ⟨st, hrun, h⟩ := avlRun_logarithmic compare noNodes rotatingCalls 8 (by decide)
    rotatingCalls_fresh
  rw [hrun, Option.map_some, Option.some.injEq] at hlive
  exact ⟨st, hrun, fun key => (h key 3 (by rw [hlive]; decide)).imp fun _ hz => hz.1⟩

end ImpossibleOs.Ex
