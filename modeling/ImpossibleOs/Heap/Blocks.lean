import ImpossibleOs.Heap.Model

/-!
The block list as a mathematical object, and what it means for memory to hold it.

`Seg m nx a e bs` says that the bytes `[a, e)` of `m` are tiled by the blocks
`bs`, each header carrying the values its block prescribes and each `next`
pointing at the following block, the last one at `nx`.
-/

namespace ImpossibleOs.Heap

open ByteMem

/-- A heap block: where its header is, how large its data area is, and the
request and pool tag while it is allocated. -/
structure Block where
  addr : ℕ
  size : ℕ
  user : Option (ℕ × UInt32)
  deriving DecidableEq, Repr

def Block.stop (B : Block) : ℕ := B.addr + headerSize + B.size

/-- What the block contributes to `used_bytes`. -/
def Block.usedSize (B : Block) : ℕ := if B.user = none then 0 else B.size

structure FreeHdr (m : ByteMem) (b : ℕ) : Prop where
  isFree : blockIsFree m b = 1
  cookie : blockCookie m b = 0

/-- Header and redzones of a block allocated for `req` bytes. -/
structure UsedHdr (m : ByteMem) (b size req : ℕ) (tag : UInt32) : Prop where
  isFree : blockIsFree m b = 0
  cookie : blockCookie m b = heapCookieFor b
  reqSize : blockReqSize m b = req
  tagEq : blockTag m b = tag.toNat
  front : blockRedzoneFront m b = heapRedzoneFront
  fits : req + heapRedzoneBackSize ≤ size
  back : readLE m (b + headerSize + req) 8 = heapRedzoneBack

/-- The header of `B` in memory, with `next` holding `nx`. -/
structure BlockOk (m : ByteMem) (B : Block) (nx : ℕ) : Prop where
  size : blockSize m B.addr = B.size
  next : blockNext m B.addr = nx
  free : B.user = none → FreeHdr m B.addr
  used : ∀ req tag, B.user = some (req, tag) → UsedHdr m B.addr B.size req tag

/-- The pointer to what follows at `c`: the next block, or `nx` past the last one. -/
def nextOf (nx c : ℕ) (bs : List Block) : ℕ := if bs = [] then nx else c

@[simp] theorem nextOf_nil (nx c : ℕ) : nextOf nx c [] = nx := rfl

@[simp] theorem nextOf_cons (nx c : ℕ) (B : Block) (bs : List Block) :
    nextOf nx c (B :: bs) = c := rfl

/-- Memory holds the blocks `bs`, tiling `[a, e)`, the last `next` being `nx`. -/
def Seg (m : ByteMem) (nx : ℕ) : ℕ → ℕ → List Block → Prop
  | a, e, [] => a = e
  | a, e, B :: bs =>
    B.addr = a ∧ BlockOk m B (nextOf nx B.stop bs) ∧ Seg m nx B.stop e bs

variable {m m' : ByteMem} {nx a e : ℕ}

theorem seg_le {m : ByteMem} {bs : List Block} (h : Seg m nx a e bs) :
    a + headerSize * bs.length ≤ e := by
  induction bs generalizing a with
  | nil => simp only [Seg] at h; simp [h]
  | cons B bs ih =>
    obtain ⟨rfl, -, htail⟩ := h
    have hle := ih htail
    simp only [Block.stop, List.length_cons, headerSize] at hle ⊢
    omega

theorem seg_append {m : ByteMem} {l r : List Block} :
    Seg m nx a e (l ++ r) ↔ ∃ c, Seg m (nextOf nx c r) a c l ∧ Seg m nx c e r := by
  induction l generalizing a with
  | nil =>
    constructor
    · intro h
      exact ⟨a, rfl, h⟩
    · rintro ⟨c, hac, h⟩
      cases hac
      exact h
  | cons B l ih =>
    have hnext : ∀ c, Seg m (nextOf nx c r) B.stop c l →
        nextOf nx B.stop (l ++ r) = nextOf (nextOf nx c r) B.stop l := by
      intro c hseg
      cases l with
      | nil => cases hseg; rfl
      | cons C l => rfl
    constructor
    · rintro ⟨haddr, hok, htail⟩
      obtain ⟨c, hl, hr⟩ := ih.mp htail
      exact ⟨c, ⟨haddr, hnext c hl ▸ hok, hl⟩, hr⟩
    · rintro ⟨c, ⟨haddr, hok, hl⟩, hr⟩
      exact ⟨haddr, (hnext c hl).symm ▸ hok, ih.mpr ⟨c, hl, hr⟩⟩

theorem FreeHdr.congr {b : ℕ} (h : FreeHdr m b)
    (hag : AgreeOn b (b + headerSize) m m') : FreeHdr m' b where
  isFree := by
    rw [← h.isFree]
    exact readLE_congr (hag.mono (by omega) (by simp only [headerSize]; omega))
  cookie := by
    rw [← h.cookie]
    exact readLE_congr (hag.mono (by omega) (by simp only [headerSize]; omega))

theorem UsedHdr.congr {b size req : ℕ} {tag : UInt32}
    (h : UsedHdr m b size req tag) (hag : AgreeOn b (b + headerSize) m m')
    (hback : AgreeOn (b + headerSize + req) (b + headerSize + req + 8) m m') :
    UsedHdr m' b size req tag := by
  have hfield : ∀ o k, o + k ≤ headerSize → readLE m' (b + o) k = readLE m (b + o) k :=
    fun o k hok => readLE_congr (hag.mono (by omega) (by omega))
  refine ⟨?_, ?_, ?_, ?_, ?_, h.fits, ?_⟩
  · exact (hfield 36 1 (by decide)).trans h.isFree
  · exact (hfield 16 8 (by decide)).trans h.cookie
  · exact (hfield 24 8 (by decide)).trans h.reqSize
  · exact (hfield 32 4 (by decide)).trans h.tagEq
  · exact (hfield 40 8 (by decide)).trans h.front
  · exact (readLE_congr hback).trans h.back

theorem BlockOk.congr {B : Block} {nx : ℕ} (h : BlockOk m B nx)
    (hag : AgreeOn B.addr B.stop m m') : BlockOk m' B nx where
  size := by
    rw [← h.size]
    exact readLE_congr (hag.mono le_rfl (by simp only [Block.stop, headerSize]; omega))
  next := by
    rw [← h.next]
    exact readLE_congr (hag.mono (by omega) (by simp only [Block.stop, headerSize]; omega))
  free := fun hu => (h.free hu).congr (hag.mono le_rfl (by simp [Block.stop]))
  used := fun req tag hu => by
    have hused := h.used req tag hu
    have hfits := hused.fits
    refine hused.congr (hag.mono le_rfl (by simp [Block.stop])) (hag.mono (by omega) ?_)
    simp only [Block.stop, heapRedzoneBackSize] at hfits ⊢
    omega

theorem Seg.congr {bs : List Block} (h : Seg m nx a e bs)
    (hag : AgreeOn a e m m') : Seg m' nx a e bs := by
  induction bs generalizing a with
  | nil => exact h
  | cons B bs ih =>
    obtain ⟨rfl, hok, htail⟩ := h
    have hle := seg_le htail
    have hstop : B.addr ≤ B.stop := by simp only [Block.stop]; omega
    refine ⟨rfl, hok.congr (hag.mono le_rfl (by omega)), ?_⟩
    exact ih htail (hag.mono hstop le_rfl)

theorem Seg.replace {nx a e c d : ℕ} {l : List Block}
    (mid mid' : List Block) {r : List Block} (hl : Seg m (nextOf nx c (mid ++ r)) a c l)
      (hr : Seg m nx d e r)
    (hmid : Seg m' (nextOf nx d r) c d mid') (hne : mid ≠ []) (hne' : mid' ≠ [])
    (hout : SameOutside c d m m') : Seg m' nx a e (l ++ (mid' ++ r)) := by
  have hnext : nextOf nx c (mid' ++ r) = nextOf nx c (mid ++ r) := by
    simp [nextOf, hne, hne']
  refine seg_append.mpr ⟨c, ?_, seg_append.mpr ⟨d, hmid, hr.congr (hout.agreeOn (.inr le_rfl))⟩⟩
  rw [hnext]
  exact hl.congr (hout.agreeOn (.inl le_rfl))

end ImpossibleOs.Heap
