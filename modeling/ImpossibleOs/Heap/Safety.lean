import ImpossibleOs.Heap.Init

/-!
Runs of the allocator.

A client state is the heap together with the allocations the client still
holds. A legal call passes `NULL` or one of those, and between calls an owner
may store into its own bytes. `HeapInv` speaks about headers, bitmap and counters
only and not about the block list the proofs carry.
-/

namespace ImpossibleOs.Heap

open ByteMem List

/-! ### Calls and runs -/

/-- The heap and the live allocations: user pointer and requested size. -/
structure HeapSys where
  heap : HeapState
  live : List (ℕ × ℕ)

/-- The allocator interface, and a store of one byte by the owner of an allocation. -/
inductive HeapCall
  | kmalloc (size : ℕ) (inject : Bool)
  | kmallocZeroed (size : ℕ) (inject : Bool)
  | kmallocTagged (size : ℕ) (tag : UInt32)
  | kfree (ptr : ℕ)
  | kfreeTagged (ptr : ℕ) (tag : UInt32)
  | krealloc (ptr newSize : ℕ) (inject : Bool)
  | store (ptr off : ℕ) (v : UInt8)

/-- The live allocations after a call that returned `p` for `size` bytes. -/
def gainPtr (live : List (ℕ × ℕ)) (p size : ℕ) : List (ℕ × ℕ) :=
  if p = 0 then live else (p, size) :: live

def dropPtr (live : List (ℕ × ℕ)) (p : ℕ) : List (ℕ × ℕ) := live.filter fun e => e.1 ≠ p

/-- `krealloc` keeps the old allocation when it returns `NULL` for a size that is not zero. -/
def movePtr (live : List (ℕ × ℕ)) (p q size : ℕ) : List (ℕ × ℕ) :=
  if size = 0 then dropPtr live p
  else if q = 0 then live
  else (q, size) :: dropPtr live p

def HeapSys.step (s : HeapSys) : HeapCall → Option HeapSys
  | .kmalloc size inject => do
    let (h, p) ← kmalloc s.heap size inject
    some ⟨h, gainPtr s.live p size⟩
  | .kmallocZeroed size inject => do
    let (h, p) ← kmallocZeroed s.heap size inject
    some ⟨h, gainPtr s.live p size⟩
  | .kmallocTagged size tag => do
    let (h, p) ← kmallocTagged s.heap size tag
    some ⟨h, gainPtr s.live p size⟩
  | .kfree ptr => do
    let (h, _) ← kfree s.heap ptr
    some ⟨h, dropPtr s.live ptr⟩
  | .kfreeTagged ptr tag => do
    let (h, _) ← kfreeTagged s.heap ptr tag
    some ⟨h, dropPtr s.live ptr⟩
  | .krealloc ptr newSize inject => do
    let (h, _, q) ← krealloc s.heap ptr newSize inject
    some ⟨h, movePtr s.live ptr q newSize⟩
  | .store ptr off v =>
    some { s with heap := { s.heap with mem := writeLE s.heap.mem (ptr + off) 1 v.toNat } }

def HeapSys.run (s : HeapSys) : List HeapCall → Option HeapSys
  | [] => some s
  | c :: cs => (s.step c).bind fun s' => s'.run cs

/-- Pointer arguments are `NULL` or live; stores stay inside a live allocation. -/
def HeapCall.legal (live : List (ℕ × ℕ)) : HeapCall → Bool
  | .kfree ptr | .kfreeTagged ptr _ | .krealloc ptr _ _ =>
    ptr == 0 || live.any fun e => e.1 == ptr
  | .store ptr off _ => live.any fun e => e.1 == ptr && decide (off < e.2)
  | _ => true

def HeapSys.LegalRun (s : HeapSys) : List HeapCall → Prop
  | [] => True
  | c :: cs => c.legal s.live = true ∧ ∀ s', s.step c = some s' → s'.LegalRun cs

/-- The blocks `bs` are the ones reached from `a` through `next`. -/
def NextPath (m : ByteMem) : ℕ → List ℕ → Prop
  | a, [] => a = 0
  | a, b :: bs => a = b ∧ b ≠ 0 ∧ NextPath m (blockNext m b) bs

/-- The representation invariant over the block headers `bs`. -/
structure HeapInv (h : HeapState) (bs : List ℕ) : Prop where
  reached : NextPath h.mem h.heapStartBlock bs
  tiles : ∀ b ∈ bs, b + headerSize + blockSize h.mem b =
    if blockNext h.mem b = 0 then h.heapStartBlock + h.totalHeapSize else blockNext h.mem b
  apart : ∀ b ∈ bs, blockNext h.mem b ≠ 0 →
    ¬(blockIsFree h.mem b ≠ 0 ∧ blockIsFree h.mem (blockNext h.mem b) ≠ 0)
  bitmap : ∀ i < heapBitmapBits,
    h.blockBitmap i = true ↔ h.heapStartBlock + heapBitmapGranule * i ∈ bs
  granular : ∀ b ∈ bs, ∃ i < heapBitmapBits, b = h.heapStartBlock + heapBitmapGranule * i
  free : ∀ b ∈ bs, blockIsFree h.mem b ≠ 0 → blockCookie h.mem b = 0
  allocated : ∀ b ∈ bs, blockIsFree h.mem b = 0 →
    blockCookie h.mem b = heapCookieFor b ∧
      blockRedzoneFront h.mem b = heapRedzoneFront ∧
      readLE h.mem (heapRedzoneBackAddr h.mem b) 8 = heapRedzoneBack ∧
      blockReqSize h.mem b + heapRedzoneBackSize ≤ blockSize h.mem b
  used : h.usedBytes =
    ((bs.filter fun b => blockIsFree h.mem b = 0).map (blockSize h.mem)).sum

/-- The live allocations are allocated blocks with disjoint user regions. -/
structure LiveInv (h : HeapState) (bs : List ℕ) (live : List (ℕ × ℕ)) : Prop where
  block : ∀ e ∈ live, ∃ b ∈ bs, e.1 = b + headerSize ∧ blockIsFree h.mem b = 0 ∧
    blockReqSize h.mem b = e.2
  aligned : ∀ e ∈ live, 16 ∣ e.1
  inside : ∀ e ∈ live, h.heapStartBlock ≤ e.1 ∧ e.1 + e.2 ≤ h.heapStartBlock + h.totalHeapSize
  disjoint : live.Pairwise fun e f => e.1 + e.2 ≤ f.1 ∨ f.1 + f.2 ≤ e.1

/-! ### Reading the invariant off the block list -/

variable {bs : List Block} {live : List (ℕ × ℕ)} {s : HeapSys} {e : ℕ × ℕ} {B : Block} {m : ByteMem}

theorem seg_nextPath {a e : ℕ} (h : Seg m 0 a e bs) (ha : 0 < a) :
    NextPath m (nextOf 0 a bs) (bs.map Block.addr) := by
  induction bs generalizing a with
  | nil => rfl
  | cons B bs ih =>
    obtain ⟨rfl, hok, htail⟩ := h
    refine ⟨rfl, by omega, ?_⟩
    rw [hok.next]
    exact ih htail (by simp only [Block.stop]; omega)

theorem seg_links {a e : ℕ} (h : Seg m 0 a e bs)
    (hadj : NoAdjacentFree bs) (hB : B ∈ bs) :
    B.stop = (if blockNext m B.addr = 0 then e else blockNext m B.addr) ∧
      (blockNext m B.addr ≠ 0 → ¬(blockIsFree m B.addr ≠ 0 ∧
        blockIsFree m (blockNext m B.addr) ≠ 0)) := by
  obtain ⟨l, r, rfl⟩ := append_of_mem hB
  obtain ⟨c, -, rfl, hok, hr⟩ := seg_append.mp h
  have hpos : B.stop ≠ 0 := by simp only [Block.stop, headerSize]; omega
  have hfree : ∀ {C : Block} {nx : ℕ}, BlockOk m C nx → blockIsFree m C.addr ≠ 0 →
      C.user = none := by
    intro C nx hC hne
    cases huser : C.user with
    | none => rfl
    | some u => exact absurd (hC.used u.1 u.2 huser).isFree hne
  rw [hok.next]
  cases r with
  | nil =>
    cases hr
    simp
  | cons N r =>
    obtain ⟨hN, hokN, -⟩ := hr
    rw [nextOf_cons, if_neg hpos]
    refine ⟨rfl, fun _ hboth => ?_⟩
    have hchain := (isChain_cons_cons.mp (noAdjacentFree_split hadj).2).1
    exact hchain ⟨hfree hok hboth.1, hfree hokN (hN ▸ hboth.2)⟩

theorem seg_blockOk {nx a e : ℕ} (h : Seg m nx a e bs) (hB : B ∈ bs) : ∃ n, BlockOk m B n := by
  obtain ⟨l, r, rfl⟩ := append_of_mem hB
  obtain ⟨c, -, -, hok, -⟩ := seg_append.mp h
  exact ⟨_, hok⟩

theorem BlockOk.isFree_eq_zero {nx : ℕ} (h : BlockOk m B nx) :
    blockIsFree m B.addr = 0 ↔ B.user ≠ none := by
  cases huser : B.user with
  | none => simp [(h.free huser).isFree]
  | some u => simp [(h.used u.1 u.2 huser).isFree]

theorem sum_usedSize_eq (h : ∀ B ∈ bs, ∃ n, BlockOk m B n) : (bs.map Block.usedSize).sum =
      (((bs.map Block.addr).filter fun b => blockIsFree m b = 0).map (blockSize m)).sum := by
  induction bs with
  | nil => rfl
  | cons B bs ih =>
    obtain ⟨n, hok⟩ := h B (by simp)
    have htail := ih fun C hC => h C (by simp [hC])
    rw [map_cons, sum_cons, htail, map_cons, filter_cons]
    by_cases huser : B.user = none
    · have hfree : blockIsFree m B.addr ≠ 0 := fun h0 => hok.isFree_eq_zero.mp h0 huser
      simp [Block.usedSize, huser, hfree]
    · have hfree : blockIsFree m B.addr = 0 := hok.isFree_eq_zero.mpr huser
      simp [Block.usedSize, huser, hfree, hok.size]

theorem HeapOk.inv {h : HeapState} (hok : HeapOk h bs) : HeapInv h (bs.map Block.addr) := by
  have hseg := hok.rep.seg
  have hpos := hok.placed.pos
  have hblock : ∀ b ∈ bs.map Block.addr, ∃ B ∈ bs, B.addr = b ∧ ∃ n, BlockOk h.mem B n := by
    intro b hb
    obtain ⟨B, hB, rfl⟩ := mem_map.mp hb
    exact ⟨B, hB, rfl, seg_blockOk hseg hB⟩
  constructor
  case reached =>
    have hpath := seg_nextPath hseg hpos
    rwa [← start_eq_nextOf hok.rep hok.nonempty] at hpath
  case tiles =>
    intro b hb
    obtain ⟨B, hB, rfl, n, hBok⟩ := hblock b hb
    rw [hBok.size]
    exact (seg_links hseg hok.noAdjacent hB).1
  case apart =>
    intro b hb
    obtain ⟨B, hB, rfl, -⟩ := hblock b hb
    exact (seg_links hseg hok.noAdjacent hB).2
  case bitmap => exact hok.rep.marks
  case granular =>
    intro b hb
    obtain ⟨B, hB, rfl, -⟩ := hblock b hb
    obtain ⟨hlo, hhi, haddr, -⟩ := hok.rep.geometry hok.placed hB
    have hstop : B.stop = B.addr + headerSize + B.size := rfl
    simp only [headerSize] at hstop
    obtain ⟨hidx, heq⟩ := heapBmIndex_spec hok.placed hlo (by omega) haddr
    exact ⟨_, hidx, heq⟩
  case free =>
    intro b hb hfree
    obtain ⟨B, hB, rfl, n, hBok⟩ := hblock b hb
    have hnone : B.user = none := by
      by_contra huser
      exact hfree (hBok.isFree_eq_zero.mpr huser)
    exact (hBok.free hnone).cookie
  case allocated =>
    intro b hb hfree
    obtain ⟨B, hB, rfl, n, hBok⟩ := hblock b hb
    obtain ⟨u, huser⟩ := Option.ne_none_iff_exists'.mp (hBok.isFree_eq_zero.mp hfree)
    have hused := hBok.used u.1 u.2 huser
    refine ⟨hused.cookie, hused.front, ?_, ?_⟩
    · rw [heapRedzoneBackAddr, hused.reqSize]
      exact hused.back
    · rw [hused.reqSize, hBok.size]
      exact hused.fits
  case used =>
    rw [hok.rep.used]
    exact sum_usedSize_eq fun B hB => seg_blockOk hseg hB

/-! ### The live allocations along a trade -/

/-- The allocation an allocated block stands for. -/
def Block.Holds (B : Block) (e : ℕ × ℕ) : Prop :=
  e.1 = B.addr + headerSize ∧ ∃ tag, B.user = some (e.2, tag)

theorem Block.Holds.used (h : B.Holds e) : B.user ≠ none := by
  obtain ⟨-, tag, huser⟩ := h
  simp [huser]

/-- Every live allocation is held by a block, and no pointer is live twice. -/
structure LiveOk (live : List (ℕ × ℕ)) (bs : List Block) : Prop where
  held : ∀ e ∈ live, ∃ B ∈ bs, B.Holds e
  nodup : (live.map Prod.fst).Nodup

theorem LiveOk.trade {bs bs' : List Block} {out gain : Option Block}
    (h : LiveOk live bs) (ht : Trades bs bs' out gain) {keep : List (ℕ × ℕ)}
    (hkeep : keep.Sublist live)
    (hout : ∀ B, out = some B → ∀ e ∈ keep, e.1 ≠ B.addr + headerSize) : LiveOk keep bs' := by
  refine ⟨fun e he => ?_, h.nodup.sublist (hkeep.map Prod.fst)⟩
  obtain ⟨B, hB, hholds⟩ := h.held e (hkeep.subset he)
  refine ⟨B, (ht.mem B hholds.used).mpr (.inr ⟨hB, fun hBout => ?_⟩), hholds⟩
  exact hout B hBout e he hholds.1

theorem LiveOk.gain {keep : List (ℕ × ℕ)} {bs bs' : List Block}
    {out : Option Block} {U : Block} (h : LiveOk live bs) (hkeep : keep.Sublist live)
    (ht : Trades bs bs' out (some U)) (hU : U ∈ bs') (hholds : U.Holds e)
    (hout : ∀ B, out = some B → ∀ e ∈ keep, e.1 ≠ B.addr + headerSize) :
    LiveOk (e :: keep) bs' := by
  have hrest := h.trade ht hkeep hout
  refine ⟨?_, ?_⟩
  · intro f hf
    rcases mem_cons.mp hf with rfl | hf
    · exact ⟨U, hU, hholds⟩
    · exact hrest.held f hf
  · rw [map_cons, nodup_cons]
    refine ⟨fun hmem => ?_, hrest.nodup⟩
    obtain ⟨f, hf, hfe⟩ := mem_map.mp hmem
    obtain ⟨C, hC, hCholds⟩ := h.held f (hkeep.subset hf)
    have haddr : C.addr = U.addr := by
      have h₁ := hCholds.1
      have h₂ := hholds.1
      omega
    rcases ht.fresh U rfl C hC haddr with hnone | hCout
    · exact hCholds.used hnone
    · exact hout C hCout f hf hCholds.1

theorem LiveOk.inv {h : HeapState} (hlive : LiveOk live bs)
    (hok : HeapOk h bs) : LiveInv h (bs.map Block.addr) live := by
  have hgeom : ∀ {B : Block} {e : ℕ × ℕ}, B ∈ bs → B.Holds e →
      blockIsFree h.mem B.addr = 0 ∧ blockReqSize h.mem B.addr = e.2 ∧ e.1 + e.2 ≤ B.stop := by
    rintro B e hB ⟨hptr, tag, huser⟩
    obtain ⟨n, hBok⟩ := seg_blockOk hok.rep.seg hB
    have hused := hBok.used e.2 tag huser
    have hfits := hused.fits
    refine ⟨hused.isFree, hused.reqSize, ?_⟩
    rw [hptr, Block.stop]
    omega
  constructor
  case block =>
    intro e he
    obtain ⟨B, hB, hholds⟩ := hlive.held e he
    exact ⟨B.addr, mem_map_of_mem hB, hholds.1, (hgeom hB hholds).1, (hgeom hB hholds).2.1⟩
  case aligned =>
    intro e he
    obtain ⟨B, hB, hholds⟩ := hlive.held e he
    obtain ⟨-, -, haddr, -⟩ := hok.rep.geometry hok.placed hB
    rw [hholds.1, headerSize]
    omega
  case inside =>
    intro e he
    obtain ⟨B, hB, hholds⟩ := hlive.held e he
    obtain ⟨hlo, hhi, -, -⟩ := hok.rep.geometry hok.placed hB
    have hstop := (hgeom hB hholds).2.2
    have hptr := hholds.1
    constructor <;> omega
  case disjoint =>
    have hne : live.Pairwise fun e f => e.1 ≠ f.1 := pairwise_map.mp hlive.nodup
    refine hne.imp_of_mem ?_
    intro e f he hf hef
    obtain ⟨B, hB, hBholds⟩ := hlive.held e he
    obtain ⟨C, hC, hCholds⟩ := hlive.held f hf
    have hBe := (hgeom hB hBholds).2.2
    have hCf := (hgeom hC hCholds).2.2
    have hBptr := hBholds.1
    have hCptr := hCholds.1
    -- two blocks of one segment lie one behind the other
    obtain ⟨l, r, rfl⟩ := append_of_mem hB
    obtain ⟨hl, -, hr⟩ := hok.rep.around
    simp only [mem_append, mem_cons] at hC
    rcases hC with hC | rfl | hC
    · have hstop := (seg_mem hl hC).2
      omega
    · omega
    · have hstart := (seg_mem hr hC).1
      omega

/-! ### Every legal run keeps the invariant -/

/-- The invariant of a client state. -/
def HeapSys.Ok (s : HeapSys) : Prop := ∃ bs, HeapOk s.heap bs ∧ LiveOk s.live bs

theorem dropPtr_sublist (live : List (ℕ × ℕ)) (p : ℕ) : (dropPtr live p).Sublist live :=
  filter_sublist

theorem ne_of_mem_dropPtr {p : ℕ} (he : e ∈ dropPtr live p) : e.1 ≠ p := by
  simpa [dropPtr] using (mem_filter.mp he).2

theorem LiveOk.sublist {live keep : List (ℕ × ℕ)} (h : LiveOk live bs)
    (hkeep : keep.Sublist live) : LiveOk keep bs :=
  h.trade (Trades.nothing bs) hkeep (by simp)

theorem LiveOk.drop (h : LiveOk live bs) (p : ℕ) : LiveOk (dropPtr live p) bs :=
  h.sublist (dropPtr_sublist live p)

theorem userPtr_ne_zero (B : Block) : B.addr + headerSize ≠ 0 := by simp [headerSize]

/-- A call made `s'` out of `s`. Unless the heap is poisoned then, at most one allocated block
went and one came: what came is live, and a pointer that is no longer live is that of the block
that went. -/
structure HeapSys.Follows (s : HeapSys) (bs : List Block) (s' : HeapSys) (bs' : List Block) :
    Prop where
  heap : HeapOk s'.heap bs'
  live : LiveOk s'.live bs'
  traded : s'.heap.heapPoisoned = true ∨ ∃ out gain, Trades bs bs' out gain ∧
    (∀ B, out = some B → B ∈ bs) ∧
    (∀ U, gain = some U → ∃ n, (U.addr + headerSize, n) ∈ s'.live) ∧
    ∀ e ∈ s.live, (∀ f ∈ s'.live, f.1 ≠ e.1) → ∃ B, out = some B ∧ e.1 = B.addr + headerSize

theorem LiveOk.ptr_ne_zero (h : LiveOk live bs) (he : e ∈ live) : e.1 ≠ 0 := by
  obtain ⟨B, -, hptr, -⟩ := h.held e he
  rw [hptr]
  exact userPtr_ne_zero B

theorem mem_dropPtr {p : ℕ} (he : e ∈ live) (hne : e.1 ≠ p) : e ∈ dropPtr live p :=
  mem_filter.mpr ⟨he, by simpa using hne⟩

theorem HeapSys.follows_of_keep {s s' : HeapSys} {bs bs' : List Block} {gain : Option Block}
    (hheap : HeapOk s'.heap bs') (hlive : LiveOk s'.live bs') (htrades : Trades bs bs' none gain)
    (hgain : ∀ U, gain = some U → ∃ n, (U.addr + headerSize, n) ∈ s'.live)
    (hkeep : ∀ e ∈ s.live, e ∈ s'.live) : s.Follows bs s' bs' :=
  ⟨hheap, hlive, .inr ⟨none, gain, htrades, by simp, hgain,
    fun e he hgone => absurd rfl (hgone e (hkeep e he))⟩⟩

theorem allocates_follows {size : ℕ} {tag : UInt32}
    {res : Option (HeapState × ℕ)} (hok : HeapOk s.heap bs) (hlive : LiveOk s.live bs)
    (hres : Allocates s.heap bs size tag res) :
    ∃ h p, res = some (h, p) ∧ ∃ bs', s.Follows bs ⟨h, gainPtr s.live p size⟩ bs' := by
  rcases hres with rfl | ⟨h', bs', U, rfl, hok', huser, hU, htrades⟩
  · refine ⟨_, _, rfl, bs, ?_⟩
    rw [gainPtr, if_pos rfl]
    exact HeapSys.follows_of_keep hok hlive (Trades.nothing bs) (by simp) fun _ he => he
  · refine ⟨_, _, rfl, bs', ?_⟩
    rw [gainPtr, if_neg (userPtr_ne_zero U)]
    refine HeapSys.follows_of_keep hok'
      (hlive.gain (List.Sublist.refl _) htrades hU ⟨rfl, tag, huser⟩ (by simp)) htrades ?_
      fun _ he => mem_cons_of_mem _ he
    rintro V ⟨⟩
    exact ⟨size, mem_cons_self⟩

theorem frees_follows {req : ℕ} {tag : UInt32}
    (want : Option UInt32) (hok : HeapOk s.heap bs) (hlive : LiveOk s.live bs) (hB : B ∈ bs)
    (huser : B.user = some (req, tag)) :
    ∃ h f, kfreeLocked s.heap (B.addr + headerSize) want noFault = some (h, f) ∧
      ∃ bs', s.Follows bs ⟨h, dropPtr s.live (B.addr + headerSize)⟩ bs' := by
  cases hpois : s.heap.heapPoisoned with
  | true =>
    refine ⟨s.heap, noFault, ?_, bs, hok, hlive.drop _, .inl hpois⟩
    rw [kfreeLocked, if_pos hpois]
  | false =>
    rcases kfreeLocked_frees_of_clean want hok hB huser hpois with
      ⟨fault, -, hres⟩ | ⟨h', bs', hres, hok', htrades⟩
    · exact ⟨_, _, hres, bs, hok.poison, hlive.drop _, .inl rfl⟩
    · refine ⟨h', noFault, hres, bs', hok', hlive.trade htrades (dropPtr_sublist _ _) ?_,
        .inr ⟨some B, none, htrades, ?_, by simp, fun e he hgone => ⟨B, rfl, ?_⟩⟩⟩
      · rintro C hC e he
        cases hC
        exact ne_of_mem_dropPtr he
      · rintro C ⟨⟩
        exact hB
      · by_contra hne
        exact hgone e (mem_dropPtr he hne) rfl

theorem reallocates_follows {newSize : ℕ}
    {res : Option (HeapState × HeapFault × ℕ)} (hok : HeapOk s.heap bs) (hlive : LiveOk s.live bs)
    (hB : B ∈ bs) (hres : Reallocates s.heap bs B newSize res) (hnew : newSize ≠ 0) :
    ∃ h f q, res = some (h, f, q) ∧
      ∃ bs', s.Follows bs ⟨h, movePtr s.live (B.addr + headerSize) q newSize⟩ bs' := by
  rcases hres with rfl | ⟨h', bs', U, tag, rfl, hok', huser, hU, htrades⟩
  · refine ⟨_, _, _, rfl, bs, ?_⟩
    rw [movePtr, if_neg hnew, if_pos rfl]
    exact HeapSys.follows_of_keep hok hlive (Trades.nothing bs) (by simp) fun _ he => he
  · refine ⟨_, _, _, rfl, bs', ?_⟩
    rw [movePtr, if_neg hnew, if_neg (userPtr_ne_zero U)]
    refine ⟨hok', hlive.gain (dropPtr_sublist _ _) htrades hU ⟨rfl, tag, huser⟩ ?_,
      .inr ⟨some B, some U, htrades, ?_, ?_, fun e he hgone => ⟨B, rfl, ?_⟩⟩⟩
    · rintro C hC e he
      cases hC
      exact ne_of_mem_dropPtr he
    · rintro C ⟨⟩
      exact hB
    · rintro V ⟨⟩
      exact ⟨newSize, mem_cons_self⟩
    · by_contra hne
      exact hgone e (mem_cons_of_mem _ (mem_dropPtr he hne)) rfl

theorem legalPtr_cases (hlive : LiveOk live bs) {p : ℕ}
    (h : (p == 0 || live.any fun e => e.1 == p) = true) :
    p = 0 ∨ ∃ B ∈ bs, p = B.addr + headerSize ∧ ∃ req tag, B.user = some (req, tag) := by
  simp only [Bool.or_eq_true, beq_iff_eq, any_eq_true] at h
  rcases h with rfl | ⟨e, he, rfl⟩
  · exact .inl rfl
  · obtain ⟨B, hB, hptr, tag, huser⟩ := hlive.held e he
    exact .inr ⟨B, hB, hptr, e.2, tag, huser⟩

theorem drop_null_follows (hok : HeapOk s.heap bs)
    (hlive : LiveOk s.live bs) : s.Follows bs ⟨s.heap, dropPtr s.live 0⟩ bs :=
  HeapSys.follows_of_keep hok (hlive.drop 0) (Trades.nothing bs) (by simp)
    fun _ he => mem_dropPtr he (hlive.ptr_ne_zero he)

theorem step_krealloc_follows {ptr : ℕ} (newSize : ℕ)
    (inject : Bool) (hok : HeapOk s.heap bs) (hlive : LiveOk s.live bs)
    (hptr : ptr = 0 ∨ ∃ B ∈ bs, ptr = B.addr + headerSize ∧ ∃ req tag, B.user = some (req, tag)) :
    ∃ h f q, krealloc s.heap ptr newSize inject = some (h, f, q) ∧
      ∃ bs', s.Follows bs ⟨h, movePtr s.live ptr q newSize⟩ bs' := by
  rcases hptr with rfl | ⟨B, hB, rfl, req, tag, huser⟩
  · -- a null pointer makes it an allocation
    have hdrop : ∀ e ∈ s.live, e ∈ dropPtr s.live 0 := fun e he =>
      mem_dropPtr he (hlive.ptr_ne_zero he)
    rcases kmalloc_spec newSize inject hok with hres | ⟨h', bs', U, hres, hok', huser, hU, htrades⟩
    · refine ⟨s.heap, noFault, 0, by simp [krealloc, hres], bs, ?_⟩
      rw [movePtr, if_pos rfl]
      split
      · exact drop_null_follows hok hlive
      · exact HeapSys.follows_of_keep hok hlive (Trades.nothing bs) (by simp) fun _ he => he
    · refine ⟨h', noFault, U.addr + headerSize, by simp [krealloc, hres], bs', ?_⟩
      have hnew : newSize ≠ 0 := by
        rintro rfl
        rw [kmalloc, if_pos rfl] at hres
        exact userPtr_ne_zero U (Prod.mk.inj (Option.some.inj hres)).2.symm
      rw [movePtr, if_neg hnew, if_neg (userPtr_ne_zero U)]
      refine HeapSys.follows_of_keep hok'
        (hlive.gain (dropPtr_sublist _ _) htrades hU ⟨rfl, 0, huser⟩ (by simp)) htrades ?_
        fun e he => mem_cons_of_mem _ (hdrop e he)
      rintro V ⟨⟩
      exact ⟨newSize, mem_cons_self⟩
  · by_cases hnew : newSize = 0
    · -- a zero size makes it a free
      obtain ⟨h, f, hres, bs', hf⟩ := frees_follows none hok hlive hB huser
      refine ⟨h, f, 0, ?_, bs', ?_⟩
      · rw [krealloc, if_neg (userPtr_ne_zero B), if_pos hnew, kfree, if_neg (userPtr_ne_zero B),
          hres]
        rfl
      · rwa [movePtr, if_pos hnew]
    · exact reallocates_follows hok hlive hB (krealloc_spec inject hok hB huser hnew) hnew

theorem HeapSys.Follows.ok {s s' : HeapSys} {bs bs' : List Block} (h : s.Follows bs s' bs') :
    s'.Ok :=
  ⟨bs', h.heap, h.live⟩

theorem step_follows {c : HeapCall} (hok : HeapOk s.heap bs)
    (hlive : LiveOk s.live bs) (hc : c.legal s.live = true) :
    ∃ s', s.step c = some s' ∧ ∃ bs', s.Follows bs s' bs' := by
  cases c with
  | kmalloc size inject =>
    obtain ⟨h, p, hres, hs'⟩ := allocates_follows hok hlive (kmalloc_spec size inject hok)
    exact ⟨_, by simp [HeapSys.step, hres], hs'⟩
  | kmallocZeroed size inject =>
    obtain ⟨h, p, hres, hs'⟩ := allocates_follows hok hlive (kmallocZeroed_spec size inject hok)
    exact ⟨_, by simp [HeapSys.step, hres], hs'⟩
  | kmallocTagged size tag =>
    obtain ⟨h, p, hres, hs'⟩ := allocates_follows hok hlive (kmallocTagged_spec size tag hok)
    exact ⟨_, by simp [HeapSys.step, hres], hs'⟩
  | kfree ptr =>
    rcases legalPtr_cases hlive hc with rfl | ⟨B, hB, rfl, req, tag, huser⟩
    · exact ⟨⟨s.heap, dropPtr s.live 0⟩, rfl, bs, drop_null_follows hok hlive⟩
    · obtain ⟨h, f, hres, hs'⟩ := frees_follows none hok hlive hB huser
      exact ⟨_, by rw [HeapSys.step, kfree, if_neg (userPtr_ne_zero B), hres]; rfl, hs'⟩
  | kfreeTagged ptr want =>
    rcases legalPtr_cases hlive hc with rfl | ⟨B, hB, rfl, req, tag, huser⟩
    · exact ⟨⟨s.heap, dropPtr s.live 0⟩, rfl, bs, drop_null_follows hok hlive⟩
    · obtain ⟨h, f, hres, hs'⟩ := frees_follows (some want) hok hlive hB huser
      exact ⟨_, by rw [HeapSys.step, kfreeTagged, if_neg (userPtr_ne_zero B), hres]; rfl, hs'⟩
  | krealloc ptr newSize inject =>
    obtain ⟨h, f, q, hres, hs'⟩ :=
      step_krealloc_follows newSize inject hok hlive (legalPtr_cases hlive hc)
    exact ⟨_, by simp [HeapSys.step, hres], hs'⟩
  | store ptr off v =>
    simp only [HeapCall.legal, any_eq_true, Bool.and_eq_true, beq_iff_eq,
      decide_eq_true_eq] at hc
    obtain ⟨e, he, rfl, hoff⟩ := hc
    obtain ⟨B, hB, hptr, tag, huser⟩ := hlive.held e he
    refine ⟨_, rfl, bs, HeapSys.follows_of_keep (hok.userStore hB huser ?_) hlive
      (Trades.nothing bs) (by simp) fun _ he => he⟩
    exact sameOutside_writeLE (by omega) (by omega)

theorem step_ok {c : HeapCall} (hs : s.Ok) (hc : c.legal s.live = true) :
    ∃ s', s.step c = some s' ∧ s'.Ok := by
  obtain ⟨bs, hok, hlive⟩ := hs
  obtain ⟨s', hstep, bs', hf⟩ := step_follows hok hlive hc
  exact ⟨s', hstep, hf.ok⟩

theorem run_ok {cs : List HeapCall} (hs : s.Ok) (hcs : s.LegalRun cs) :
    ∃ s', s.run cs = some s' ∧ s'.Ok := by
  induction cs generalizing s with
  | nil => exact ⟨s, rfl, hs⟩
  | cons c cs ih =>
    obtain ⟨hc, hrest⟩ := hcs
    obtain ⟨s₁, hstep, hs₁⟩ := step_ok hs hc
    obtain ⟨s', hrun, hs'⟩ := ih hs₁ (hrest s₁ hstep)
    exact ⟨s', by simp [HeapSys.run, hstep, hrun], hs'⟩

/-- From `heap_init` on, every legal run of the allocator goes through, leaves the headers,
the bitmap and the counter consistent, and keeps the live allocations apart. -/
theorem heap_run_inv {mem : ByteMem} {p : CappedPmm} {h : HeapState} {cs : List HeapCall}
    (hinit : heapInitFrom mem p = some h) (hcs : HeapSys.LegalRun ⟨h, []⟩ cs) :
    ∃ s, HeapSys.run ⟨h, []⟩ cs = some s ∧ ∃ bs, HeapInv s.heap bs ∧ LiveInv s.heap bs s.live := by
  obtain ⟨bs, hok, -⟩ := heapInitFrom_ok hinit
  have hs : HeapSys.Ok ⟨h, []⟩ := ⟨bs, hok, by simp, by simp⟩
  obtain ⟨s, hrun, bs', hok', hlive'⟩ := run_ok hs hcs
  exact ⟨s, hrun, bs'.map Block.addr, hok'.inv, hlive'.inv hok'⟩

/-- 514 frames, of which frame 0 is in use. -/
def smallPmm : CappedPmm := ⟨⟨fun i => if i = 0 then 1 else 0, 514, 1⟩, by decide⟩

theorem smallPmm_contiguous :
    (Mm.pmmAllocContiguous smallPmm.toPmm (heapInitialPages + 1)).2 = 4096 := by
  decide +kernel

theorem heapInitFrom_smallPmm :
    heapInitFrom (fun _ => 0) smallPmm = some (installHeap (fun _ => 0) 4096 heapInitialPages) := by
  rw [heapInitFrom, smallPmm_contiguous]
  rfl

/-- Allocate 100 bytes, store into them, free them. -/
theorem heap_run_inv_smallPmm :
    ∃ s, HeapSys.run ⟨installHeap (fun _ => 0) 4096 heapInitialPages, []⟩
        [.kmalloc 100 false, .store 4144 99 7, .kfree 4144] = some s ∧
      ∃ bs, HeapInv s.heap bs ∧ LiveInv s.heap bs s.live := by
  refine heap_run_inv heapInitFrom_smallPmm ⟨rfl, fun s₁ h₁ => ?_⟩
  have hlive : (HeapSys.step ⟨installHeap (fun _ => 0) 4096 heapInitialPages, []⟩
      (.kmalloc 100 false)).map HeapSys.live = some [(4144, 100)] := by
    decide
  rw [h₁] at hlive
  have hlive₁ : s₁.live = [(4144, 100)] := by simpa using hlive
  refine ⟨by rw [hlive₁]; decide, fun s₂ h₂ => ?_⟩
  cases h₂
  exact ⟨by rw [hlive₁]; decide, fun _ _ => trivial⟩

end ImpossibleOs.Heap
