import ImpossibleOs.Quota.ChargeInv

/-!
Runs of charges, returns and resizes.

One lemma for each place where a call can stand says that its next step keeps
the invariant.
-/

namespace ImpossibleOs.Quota.Charge

open Interleave Function List

section Runs

variable {Tid Rid Block : Type*} [DecidableEq Tid] [DecidableEq Rid] [LinearOrder Block]
  [Fintype Rid]

/-! ### Steps -/

section Receipts

variable {rc : Receipt Block} {gen : ℕ}

section

omit [LinearOrder Block]

theorem receiptOk_busy (htag : rc.tag = receiptTag gen receiptBusy) (hgen : gen ≤ genMax)
    (hfits : rc.booked ≠ [] → rc.amount ≤ amountMax ∧ rc.type < typeCount)
    (hnodup : rc.booked.Nodup) : ReceiptOk rc := by
  have hstate : tagState rc.tag = receiptBusy := by
    rw [htag]
    exact tagState_receiptTag hgen (Nat.le_refl _)
  refine ⟨⟨gen, receiptBusy, hgen, Nat.le_refl _, htag⟩, ?_, ?_, hfits, hnodup⟩
  · intro hidle
    rw [hstate] at hidle
    exact absurd hidle (by decide)
  · intro hactive
    rw [hstate] at hactive
    exact absurd hactive (by decide)

theorem receiptOk_idle (htag : rc.tag = receiptTag gen receiptIdle) (hgen : gen ≤ genMax)
    (hbooked : rc.booked = []) (hlive : rc.live = false) : ReceiptOk rc := by
  have hstate : tagState rc.tag = receiptIdle := by
    rw [htag]
    exact tagState_receiptTag hgen (by decide)
  refine ⟨⟨gen, receiptIdle, hgen, by decide, htag⟩, fun _ => ⟨hbooked, hlive⟩, ?_, ?_, ?_⟩
  · intro hactive
    rw [hstate] at hactive
    exact absurd hactive (by decide)
  · exact fun hne => absurd hbooked hne
  · rw [hbooked]
    exact nodup_nil

theorem receiptOk_active (htag : rc.tag = receiptTag gen receiptActive) (hgen : gen ≤ genMax)
    (hbooked : rc.booked = rc.blocks) (hlive : rc.live = true)
    (hfits : rc.booked ≠ [] → rc.amount ≤ amountMax ∧ rc.type < typeCount)
    (hnodup : rc.booked.Nodup) : ReceiptOk rc := by
  have hstate : tagState rc.tag = receiptActive := by
    rw [htag]
    exact tagState_receiptTag hgen (by decide)
  refine ⟨⟨gen, receiptActive, hgen, by decide, htag⟩, ?_, fun _ => ⟨hbooked, hlive⟩, hfits,
    hnodup⟩
  intro hidle
  rw [hstate] at hidle
  exact absurd hidle (by decide)

end

namespace Owned

variable {booked : List Block} {live : Bool}

omit [LinearOrder Block] in
theorem tagGen_eq (h : Owned rc gen booked live) : tagGen rc.tag = gen := by
  rw [h.tag]
  exact tagGen_receiptTag h.gen (Nat.le_refl _)

end Owned

end Receipts

namespace ChargeOk

variable {c : State Tid Rid Block} {es : List (Tid × Event Rid Block)} {t : Tid} {r : Rid}

variable {l' : Local Rid Block}

theorem put (h : ChargeOk c es) {m₁ : Mem Rid Block} {rc' : Receipt Block}
    {ev : Event Rid Block} (hreceipt : m₁.receipt = c.shared.receipt)
    (hheld : (c.threads t).pc.held = some r ∨ ((c.threads t).pc.held = none ∧
      tagState (c.shared.receipt r).tag ≠ receiptBusy))
    (hheld' : l'.pc.held = some r ∨ (l'.pc.held = none ∧ tagState rc'.tag ≠ receiptBusy))
    (hok : ReceiptOk rc') (husage : ∀ b type, m₁.usage b type = c.shared.usage b type +
      (part rc' b type - part (c.shared.receipt r) b type))
    (hbound : ∀ b type, m₁.usage b type ≤ amountMax) (hknows : Knows (m₁.setReceipt r rc') l')
    (hrecords : Records r (c.shared.receipt r) rc' ev) (hfair : ev.Fair) :
    ChargeOk ⟨m₁.setReceipt r rc', update c.threads t l'⟩ (es ++ [(t, ev)]) := by
  refine h.act r hheld ?_ ?_ ?_ ?_ hbound hknows ?_ hfair
  · rwa [Mem.setReceipt_self]
  · intro x hx
    rw [Mem.setReceipt_of_ne _ _ hx, hreceipt]
  · rwa [Mem.setReceipt_self]
  · intro b type
    rw [Mem.setReceipt_self]
    exact husage b type
  · rwa [Mem.setReceipt_self]

theorem write (h : ChargeOk c es) {rc' : Receipt Block} {ev : Event Rid Block}
    (hheld : (c.threads t).pc.held = some r ∨ ((c.threads t).pc.held = none ∧
      tagState (c.shared.receipt r).tag ≠ receiptBusy))
    (hheld' : l'.pc.held = some r ∨ (l'.pc.held = none ∧ tagState rc'.tag ≠ receiptBusy))
    (hok : ReceiptOk rc') (hpart : part rc' = part (c.shared.receipt r))
    (hknows : Knows (c.shared.setReceipt r rc') l')
    (hrecords : Records r (c.shared.receipt r) rc' ev) (hfair : ev.Fair) :
    ChargeOk ⟨c.shared.setReceipt r rc', update c.threads t l'⟩ (es ++ [(t, ev)]) := by
  refine h.put rfl hheld hheld' hok ?_ h.bound hknows hrecords hfair
  intro b type
  rw [hpart, sub_self, add_zero]

theorem keep (h : ChargeOk c es) (hheld : (c.threads t).pc.held = some r)
    (hheld' : l'.pc.held = some r) (hknows : Knows c.shared l') :
    ChargeOk ⟨c.shared, update c.threads t l'⟩ (es ++ [(t, Event.silent)]) := by
  refine h.act r (.inl hheld) (.inl hheld') (fun _ _ => rfl) (h.receipts r) ?_ h.bound hknows
    (.plain nofun nofun rfl rfl) trivial
  intro b type
  rw [sub_self, add_zero]

end ChargeOk

omit [DecidableEq Rid] [LinearOrder Block] [Fintype Rid] in
theorem stay_eq {m m' : Mem Rid Block} {l l' : Local Rid Block} {pc : Pc Rid}
    {ev : Event Rid Block} (h : stay m l pc = some ((m', l'), ev)) :
    m' = m ∧ l' = l.goto pc ∧ ev = .silent := by
  cases h
  exact ⟨rfl, rfl, rfl⟩

namespace ChargeOk

variable {c : State Tid Rid Block} {es : List (Tid × Event Rid Block)} {t : Tid} {r : Rid}
  {env : Env Block} {m' : Mem Rid Block} {l' : Local Rid Block} {ev : Event Rid Block}

abbrev After (c : State Tid Rid Block) (es : List (Tid × Event Rid Block)) (t : Tid)
    (m' : Mem Rid Block) (l' : Local Rid Block) (ev : Event Rid Block) : Prop :=
  ChargeOk ⟨m', update c.threads t l'⟩ (es ++ [(t, ev)])

/-! #### Charging -/

section

variable (h : ChargeOk c es)
include h

omit [DecidableEq Tid] in
/-- Where the thread is, for a step of its own. -/
theorem enter {pc : Pc Rid} (hgo : go c.shared (c.threads t) env = some ((m', l'), ev))
    (hpc : (c.threads t).pc = pc) : Knows c.shared { c.threads t with pc := pc } ∧
    (c.threads t).pc.held = pc.held ∧
    go c.shared { c.threads t with pc := pc } env = some ((m', l'), ev) := by
  subst hpc
  exact ⟨h.knows t, rfl, hgo⟩

variable (hgo : go c.shared (c.threads t) env = some ((m', l'), ev))
include hgo

theorem chargeLoad {type amount : ℕ} (hpc : (c.threads t).pc = .chargeLoad r type amount) :
    After c es t m' l' ev := by
  obtain ⟨hknows, hheld, hgo⟩ := h.enter hgo hpc
  dsimp only [Charge.go, Knows] at hgo hknows
  split at hgo
  · cases hgo
    exact h.quiet rfl rfl hheld rfl trivial nofun nofun hknows
  rename_i hidle
  split at hgo
  · cases hgo
    exact h.quiet rfl rfl hheld rfl trivial nofun nofun hknows
  rename_i hgen
  cases hgo
  exact h.quiet rfl rfl hheld rfl ⟨not_not.mp hidle, Nat.not_le.mp hgen, hknows⟩ nofun nofun trivial

theorem chargeTry {type amount claim : ℕ}
    (hpc : (c.threads t).pc = .chargeTry r type amount claim) : After c es t m' l' ev := by
  have hrc := h.receipts r
  obtain ⟨⟨hidle, hgen, hmoved⟩, hheld, hgo⟩ := h.enter hgo hpc
  dsimp only [Charge.go] at hgo
  split at hgo
  · rename_i htag
    subst htag
    cases hgo
    obtain ⟨hbooked, hlive⟩ := hrc.idle hidle
    refine h.write (.inr ⟨hheld, ?_⟩) (.inl rfl) ?_ rfl ?_ ?_ trivial
    · rw [hidle]
      decide
    · exact receiptOk_busy rfl hgen.le hrc.fits hrc.nodup
    · refine ⟨?_, hgen, hmoved⟩
      rw [Mem.setReceipt_self]
      exact ⟨rfl, hgen.le, hbooked, hlive⟩
    · exact .plain nofun nofun (tagGen_receiptTag hgen.le (Nat.le_refl _)) rfl
  · cases hgo
    exact h.quiet rfl rfl hheld rfl trivial nofun nofun hmoved

theorem chargeFill {type amount gen : ℕ} (hpc : (c.threads t).pc = .chargeFill r type amount gen) :
    After c es t m' l' ev := by
  obtain ⟨⟨hown, hgen, hmoved⟩, hheld, hgo⟩ := h.enter hgo hpc
  dsimp only [Charge.go] at hgo
  have hfilled : Owned { c.shared.receipt r with blocks := [], type := type, amount := amount }
      gen [] false := ⟨hown.tag, hown.gen, hown.booked, hown.live⟩
  have hnext {pc : Pc Rid} (hpc' : pc.held = some r)
      (hk : Knows (c.shared.setReceipt r { c.shared.receipt r with
        blocks := [], type := type, amount := amount }) ((c.threads t).goto pc)) :
      After c es t (c.shared.setReceipt r { c.shared.receipt r with
        blocks := [], type := type, amount := amount }) ((c.threads t).goto pc) .silent := by
    refine h.write (.inl hheld) (.inl hpc') ?_ ?_ hk (.plain nofun nofun rfl rfl) trivial
    · refine receiptOk_busy hown.tag hown.gen (fun hne => absurd hown.booked hne) ?_
      rw [show ({ c.shared.receipt r with blocks := [], type := type, amount := amount } :
        Receipt Block).booked = [] from hown.booked]
      exact nodup_nil
    · funext b ty
      rw [part_nil hown.booked, part_nil hfilled.booked]
  have hrelease (st : Status) : Knows (c.shared.setReceipt r { c.shared.receipt r with
      blocks := [], type := type, amount := amount })
        ((c.threads t).goto (.chargeRelease r gen st)) := by
    refine ⟨?_, hmoved⟩
    rw [Mem.setReceipt_self]
    exact hfilled
  split at hgo
  · obtain ⟨rfl, rfl, rfl⟩ := stay_eq hgo
    exact hnext rfl (hrelease _)
  split at hgo
  · split at hgo
    · obtain ⟨rfl, rfl, rfl⟩ := stay_eq hgo
      exact hnext rfl (hrelease _)
    · obtain ⟨rfl, rfl, rfl⟩ := stay_eq hgo
      exact hnext rfl (hrelease _)
  · obtain ⟨rfl, rfl, rfl⟩ := stay_eq hgo
    refine hnext rfl ⟨?_, hgen, hmoved⟩
    rw [Mem.setReceipt_self]
    exact hfilled

theorem chargeGate {gen : ℕ} (hpc : (c.threads t).pc = .chargeGate r gen) :
    After c es t m' l' ev := by
  obtain ⟨hknows, hheld, hgo⟩ := h.enter hgo hpc
  dsimp only [Charge.go, Knows] at hgo hknows
  split at hgo
  · obtain ⟨rfl, rfl, rfl⟩ := stay_eq hgo
    exact h.keep hheld rfl hknows
  · obtain ⟨rfl, rfl, rfl⟩ := stay_eq hgo
    exact h.keep hheld rfl ⟨hknows.1, hknows.2.2⟩

theorem chargeChain {gen : ℕ} (hpc : (c.threads t).pc = .chargeChain r gen) :
    After c es t m' l' ev := by
  have hrc := h.receipts r
  obtain ⟨⟨hown, hgen, hmoved⟩, hheld, hgo⟩ := h.enter hgo hpc
  dsimp only [Charge.go] at hgo
  split at hgo
  · obtain ⟨rfl, rfl, rfl⟩ := stay_eq hgo
    exact h.keep hheld rfl ⟨hown, hmoved⟩
  split at hgo
  · obtain ⟨rfl, rfl, rfl⟩ := stay_eq hgo
    exact h.keep hheld rfl ⟨hown, hmoved⟩
  rename_i chain hchain
  split at hgo
  · obtain ⟨rfl, rfl, rfl⟩ := stay_eq hgo
    refine h.write (.inl hheld) (.inl rfl) ?_ rfl ?_ (.plain nofun nofun rfl rfl) trivial
    · exact receiptOk_busy hown.tag hown.gen hrc.fits hrc.nodup
    · unfold Knows
      dsimp only [Local.goto]
      rw [Mem.setReceipt_self]
      refine ⟨⟨hown.tag, hown.gen, hown.booked, hown.live⟩, hgen, chainOf_nodup hchain,
        Nat.zero_le _, ?_⟩
      rw [hmoved]
      funext b ty
      exact (part_nil hown.booked b ty).symm
  · obtain ⟨rfl, rfl, rfl⟩ := stay_eq hgo
    exact h.keep hheld rfl ⟨hown, hmoved⟩

end

end ChargeOk

/-! #### Booking -/

theorem part_concat (rc : Receipt Block) (b x : Block) (type : ℕ) :
    part { rc with booked := rc.booked ++ [b] } x type =
      part rc x type + if x = b ∧ type = rc.type then (rc.amount : ℤ) else 0 := by
  unfold part
  rcases eq_or_ne type rc.type with rfl | htype
  · rcases eq_or_ne x b with rfl | hx
    · simp [count_append]
      ring
    · simp [count_append, hx, hx.symm]
  · simp [htype]

theorem part_tail {rc : Receipt Block} {b : Block} {bs : List Block} (h : rc.booked = b :: bs)
    (x : Block) (type : ℕ) : part { rc with booked := rc.booked.tail } x type =
      part rc x type + if x = b ∧ type = rc.type then -(rc.amount : ℤ) else 0 := by
  unfold part
  rw [h, tail_cons]
  rcases eq_or_ne type rc.type with rfl | htype
  · rcases eq_or_ne x b with rfl | hx
    · simp
      ring
    · simp [hx, hx.symm]
  · simp [htype]

namespace ChargeOk

variable {c : State Tid Rid Block} {es : List (Tid × Event Rid Block)} {t : Tid} {r : Rid}
  {env : Env Block} {m' : Mem Rid Block} {l' : Local Rid Block} {ev : Event Rid Block}

section

variable (h : ChargeOk c es)
include h

omit [DecidableEq Tid] in
theorem giveBack_adds {b : Block} {bs : List Block}
    (hbooked : (c.shared.receipt r).booked = b :: bs) :
    c.shared.Adds (c.shared.giveBack b (c.shared.receipt r).type (c.shared.receipt r).amount).1 b
      (c.shared.receipt r).type (-(c.shared.receipt r).amount) := by
  obtain ⟨hamount, htype⟩ := (h.receipts r).fits (by rw [hbooked]; exact nofun)
  refine Mem.giveBack_spec htype hamount ?_
  refine Int.le_trans ?_ (h.part_le r b (c.shared.receipt r).type)
  unfold part
  rw [if_pos rfl, hbooked, count_cons_self]
  have hcount : (1 : ℤ) ≤ ((bs.count b + 1 : ℕ) : ℤ) := by omega
  calc ((c.shared.receipt r).amount : ℤ)
      = (c.shared.receipt r).amount * 1 := (mul_one _).symm
    _ ≤ _ := Int.mul_le_mul_of_nonneg_left hcount (Int.natCast_nonneg _)

theorem unbook (hheld : (c.threads t).pc.held = some r) {gen : ℕ} {b : Block}
    {bs : List Block} (hown : Owned (c.shared.receipt r) gen (b :: bs) false) {pc : Pc Rid}
    (hpc : pc.held = some r) (hknows : ∀ m₁ : Mem Rid Block,
      c.shared.Adds m₁ b (c.shared.receipt r).type (-(c.shared.receipt r).amount) →
      Owned { c.shared.receipt r with booked := (c.shared.receipt r).booked.tail } gen bs false →
      Knows (m₁.setReceipt r { c.shared.receipt r with booked := (c.shared.receipt r).booked.tail })
        (((c.threads t).move c.shared m₁).goto pc)) :
    After c es t ((c.shared.giveBack b (c.shared.receipt r).type
        (c.shared.receipt r).amount).1.setReceipt r
          { c.shared.receipt r with booked := (c.shared.receipt r).booked.tail })
      (((c.threads t).move c.shared (c.shared.giveBack b (c.shared.receipt r).type
        (c.shared.receipt r).amount).1).goto pc) .silent := by
  have hrc := h.receipts r
  have hadds := h.giveBack_adds hown.booked
  have htail : (c.shared.receipt r).booked.tail = bs := by rw [hown.booked, tail_cons]
  refine h.put hadds.1 (.inl hheld) (.inl hpc) ?_ ?_ ?_ (hknows _ hadds ?_)
    (.plain nofun nofun rfl rfl) trivial
  · refine receiptOk_busy hown.tag hown.gen ?_ ?_
    · intro _
      exact hrc.fits (by rw [hown.booked]; exact nofun)
    · exact hrc.nodup.sublist (tail_sublist _)
  · intro x ty
    rw [hadds.2, part_tail hown.booked]
    ring
  · intro x ty
    rw [hadds.2]
    have hbound := h.bound x ty
    split <;> omega
  · exact ⟨hown.tag, hown.gen, htail, hown.live⟩

variable (hgo : go c.shared (c.threads t) env = some ((m', l'), ev))
include hgo

theorem charging {gen i : ℕ} (hpc : (c.threads t).pc = .charging r gen i) :
    After c es t m' l' ev := by
  obtain ⟨⟨hown, hgen, hnodup, hi, hmoved⟩, hheld, hgo⟩ := h.enter hgo hpc
  dsimp only [Charge.go] at hgo
  split at hgo
  · rename_i hend
    obtain ⟨rfl, rfl, rfl⟩ := stay_eq hgo
    refine h.keep hheld rfl ⟨?_, hgen⟩
    rwa [take_of_length_le (List.getElem?_eq_none_iff.mp hend)] at hown
  rename_i b hb
  have htake : (c.shared.receipt r).blocks.take i ++ [b] =
      (c.shared.receipt r).blocks.take (i + 1) := by
    rw [take_add_one, hb]
    rfl
  rcases c.shared.charge_spec b (c.shared.receipt r).type (c.shared.receipt r).amount with
    ⟨hsuccess, htype, hamount, hadds, hmax⟩ | ⟨hfail, hsame⟩
  · rw [if_pos hsuccess] at hgo
    obtain ⟨rfl, rfl, rfl⟩ := stay_eq hgo
    refine h.put hadds.1 (.inl hheld) (.inl rfl) ?_ ?_ ?_ ?_ (.plain nofun nofun rfl rfl) trivial
    · refine receiptOk_busy hown.tag hown.gen (fun _ => ⟨hamount, htype⟩) ?_
      dsimp only
      rw [hown.booked, htake]
      exact hnodup.sublist (take_sublist _ _)
    · intro x ty
      rw [hadds.2, part_concat]
      ring
    · intro x ty
      rcases hmax with hmax | hmax
      · rw [hadds.2]
        split
        · rename_i hxy
          obtain ⟨rfl, rfl⟩ := hxy
          rwa [hadds.2, if_pos ⟨rfl, rfl⟩] at hmax
        · rw [add_zero]
          exact h.bound x ty
      · rw [hmax]
        exact h.bound x ty
    · unfold Knows
      dsimp only [Local.goto, Local.move]
      rw [Mem.setReceipt_self]
      refine ⟨⟨hown.tag, hown.gen, ?_, hown.live⟩, hgen, hnodup, ?_, ?_⟩
      · dsimp only
        rw [hown.booked, htake]
      · have := (List.getElem?_eq_some_iff.mp hb).1
        dsimp only
        omega
      · funext x ty
        rw [hmoved, hadds.2, part_concat]
        ring
  · rw [if_neg hfail] at hgo
    obtain ⟨rfl, rfl, rfl⟩ := stay_eq hgo
    rw [hsame]
    exact h.keep hheld rfl ⟨hown, hi, hmoved⟩

theorem unwinding {gen i j : ℕ} {st : Status} (hpc : (c.threads t).pc = .unwinding r gen i j st) :
    After c es t m' l' ev := by
  have hrc := h.receipts r
  obtain ⟨⟨hown, hi, hmoved⟩, hheld, hgo⟩ := h.enter hgo hpc
  dsimp only [Charge.go] at hgo
  split at hgo
  · rename_i hj
    split at hgo
    · cases hgo
    rename_i b hb
    have hdrop : ((c.shared.receipt r).blocks.take i).drop j =
        b :: ((c.shared.receipt r).blocks.take i).drop (j + 1) := by
      have hlt : j < ((c.shared.receipt r).blocks.take i).length := by
        rw [length_take]
        omega
      rw [drop_eq_getElem_cons hlt, getElem_take]
      congr 1
      exact (List.getElem?_eq_some_iff.mp hb).2
    rw [hdrop] at hown
    obtain ⟨rfl, rfl, rfl⟩ := stay_eq hgo
    refine h.unbook hheld hown rfl ?_
    intro m₁ hadds hown₁
    unfold Knows
    dsimp only [Local.goto, Local.move]
    rw [Mem.setReceipt_self]
    refine ⟨hown₁, hi, ?_⟩
    funext x ty
    rw [hmoved, hadds.2, part_tail hown.booked]
    ring
  · rename_i hj
    have hnil : ((c.shared.receipt r).blocks.take i).drop j = [] := by
      refine drop_of_length_le ?_
      rw [length_take]
      omega
    rw [hnil] at hown
    obtain ⟨rfl, rfl, rfl⟩ := stay_eq hgo
    refine h.write (.inl hheld) (.inl rfl) ?_ rfl ?_ (.plain nofun nofun rfl rfl) trivial
    · exact receiptOk_busy hown.tag hown.gen hrc.fits hrc.nodup
    · unfold Knows
      dsimp only [Local.goto]
      rw [Mem.setReceipt_self]
      refine ⟨⟨hown.tag, hown.gen, hown.booked, hown.live⟩, ?_⟩
      rw [hmoved]
      funext x ty
      exact part_nil hown.booked x ty

theorem chargeRelease {gen : ℕ} {st : Status} (hpc : (c.threads t).pc = .chargeRelease r gen st) :
    After c es t m' l' ev := by
  obtain ⟨⟨hown, hmoved⟩, hheld, hgo⟩ := h.enter hgo hpc
  dsimp only [Charge.go] at hgo
  cases hgo
  refine h.write (.inl hheld) (.inr ⟨rfl, ?_⟩) ?_ rfl trivial ?_ hmoved
  · rw [tagState_receiptTag hown.gen (by decide)]
    decide
  · exact receiptOk_idle rfl hown.gen hown.booked hown.live
  · exact .plain nofun nofun (by rw [tagGen_receiptTag hown.gen (by decide), hown.tagGen_eq]) rfl

theorem publish {gen : ℕ} (hpc : (c.threads t).pc = .publish r gen) :
    After c es t m' l' ev := by
  have hrc := h.receipts r
  obtain ⟨⟨hown, hgen⟩, hheld, hgo⟩ := h.enter hgo hpc
  dsimp only [Charge.go] at hgo
  cases hgo
  have hgen' : tagGen (receiptTag (gen + 1) receiptActive) = gen + 1 :=
    tagGen_receiptTag hgen (by decide)
  refine h.write (.inl hheld) (.inr ⟨rfl, ?_⟩) ?_ rfl trivial ?_ trivial
  · rw [tagState_receiptTag hgen (by decide)]
    decide
  · exact receiptOk_active rfl hgen hown.booked rfl hrc.fits hrc.nodup
  · rw [← hown.tagGen_eq]
    refine .charged ?_ hown.live rfl
    rw [hown.tagGen_eq]
    exact hgen'

end

end ChargeOk

namespace ChargeOk

variable {c : State Tid Rid Block} {es : List (Tid × Event Rid Block)} {t : Tid} {r : Rid}
  {env : Env Block} {m' : Mem Rid Block} {l' : Local Rid Block} {ev : Event Rid Block}

/-! #### Returning -/

variable {token : ℕ}

section

variable (h : ChargeOk c es)
include h

theorem takeCharge {lost : Result Rid Block}
    (hheld : (c.threads t).pc.held = none) (htoken : token ≤ genMax)
    (hlost : lost = some ((m', l'), ev) → After c es t m' l' ev)
    (hgo : Charge.takeCharge c.shared (c.threads t) r token lost = some ((m', l'), ev)) :
    After c es t m' l' ev := by
  unfold Charge.takeCharge at hgo
  dsimp only at hgo
  split at hgo
  · rename_i htag
    have hrc := h.receipts r
    have hstate : tagState (c.shared.receipt r).tag = receiptActive := by
      rw [htag]
      exact tagState_receiptTag htoken (by decide)
    have hgen : tagGen (c.shared.receipt r).tag = token := by
      rw [htag]
      exact tagGen_receiptTag htoken (by decide)
    obtain ⟨hbooked, hlive⟩ := hrc.active hstate
    cases hgo
    refine h.write (.inr ⟨hheld, ?_⟩) (.inl rfl) ?_ rfl ?_ ?_ hgen
    · rw [hstate]
      decide
    · exact receiptOk_busy rfl htoken hrc.fits hrc.nodup
    · unfold Knows
      dsimp only [Local.goto]
      rw [Mem.setReceipt_self]
      exact ⟨rfl, htoken, hbooked, rfl⟩
    · refine .taken token ?_ hlive rfl
      rw [hgen]
      exact tagGen_receiptTag htoken (Nat.le_refl _)
  · exact hlost hgo

variable (hgo : go c.shared (c.threads t) env = some ((m', l'), ev))
include hgo

theorem returnTry (hpc : (c.threads t).pc = .returnTry r token) :
    After c es t m' l' ev := by
  obtain ⟨htoken, hheld, hgo⟩ := h.enter hgo hpc
  dsimp only [Charge.go, Knows] at hgo htoken
  refine h.takeCharge hheld htoken (fun hlost => ?_) hgo
  obtain ⟨rfl, rfl, rfl⟩ := stay_eq hlost
  exact h.quiet rfl rfl hheld rfl htoken nofun nofun trivial

theorem returnLoad {token left : ℕ} (hpc : (c.threads t).pc = .returnLoad r token left) :
    After c es t m' l' ev := by
  obtain ⟨htoken, hheld, hgo⟩ := h.enter hgo hpc
  dsimp only [Charge.go, Knows] at hgo htoken
  split at hgo
  · cases hgo
    exact h.quiet rfl rfl hheld rfl trivial nofun nofun trivial
  split at hgo
  · obtain ⟨rfl, rfl, rfl⟩ := stay_eq hgo
    exact h.quiet rfl rfl hheld rfl htoken nofun nofun trivial
  split at hgo
  · obtain ⟨rfl, rfl, rfl⟩ := stay_eq hgo
    exact h.quiet rfl rfl hheld rfl htoken nofun nofun trivial
  · obtain ⟨rfl, rfl, rfl⟩ := stay_eq hgo
    exact h.quiet rfl rfl hheld rfl htoken nofun nofun trivial

theorem returnSpin {token left : ℕ} (hpc : (c.threads t).pc = .returnSpin r token left) :
    After c es t m' l' ev := by
  obtain ⟨htoken, hheld, hgo⟩ := h.enter hgo hpc
  dsimp only [Charge.go, Knows] at hgo htoken
  refine h.takeCharge hheld htoken (fun hlost => ?_) hgo
  split at hlost
  · obtain ⟨rfl, rfl, rfl⟩ := stay_eq hlost
    exact h.quiet rfl rfl hheld rfl htoken nofun nofun trivial
  · obtain ⟨rfl, rfl, rfl⟩ := stay_eq hlost
    exact h.quiet rfl rfl hheld rfl htoken nofun nofun trivial

theorem returnLast (hpc : (c.threads t).pc = .returnLast r token) :
    After c es t m' l' ev := by
  obtain ⟨htoken, hheld, hgo⟩ := h.enter hgo hpc
  dsimp only [Charge.go, Knows] at hgo htoken
  refine h.takeCharge hheld htoken (fun hlost => ?_) hgo
  cases hlost
  exact h.quiet rfl rfl hheld rfl trivial nofun nofun trivial

theorem crediting {token i : ℕ} (hpc : (c.threads t).pc = .crediting r token i) :
    After c es t m' l' ev := by
  obtain ⟨hown, hheld, hgo⟩ := h.enter hgo hpc
  dsimp only [Charge.go, Knows] at hgo hown
  split at hgo
  · rename_i hend
    rw [drop_of_length_le (List.getElem?_eq_none_iff.mp hend)] at hown
    obtain ⟨rfl, rfl, rfl⟩ := stay_eq hgo
    refine h.write (.inl hheld) (.inl rfl) ?_ ?_ ?_ (.plain nofun nofun rfl rfl) trivial
    · refine receiptOk_busy hown.tag hown.gen (fun hne => absurd hown.booked hne) ?_
      exact (h.receipts r).nodup
    · funext x ty
      have hnew : part { c.shared.receipt r with blocks := [], amount := 0 } x ty = 0 := by
        refine part_nil ?_ x ty
        exact hown.booked
      rw [hnew, part_nil hown.booked]
    · unfold Knows
      dsimp only [Local.goto]
      rw [Mem.setReceipt_self]
      exact ⟨hown.tag, hown.gen, hown.booked, hown.live⟩
  · rename_i b hb
    have hdrop : (c.shared.receipt r).blocks.drop i =
        b :: (c.shared.receipt r).blocks.drop (i + 1) := by
      obtain ⟨hlt, hget⟩ := List.getElem?_eq_some_iff.mp hb
      rw [drop_eq_getElem_cons hlt, hget]
    rw [hdrop] at hown
    obtain ⟨rfl, rfl, rfl⟩ := stay_eq hgo
    refine h.unbook hheld hown rfl ?_
    intro m₁ _ hown₁
    unfold Knows
    dsimp only [Local.goto]
    rw [Mem.setReceipt_self]
    exact hown₁

theorem returnRelease (hpc : (c.threads t).pc = .returnRelease r token) :
    After c es t m' l' ev := by
  obtain ⟨hown, hheld, hgo⟩ := h.enter hgo hpc
  dsimp only [Charge.go, Knows] at hgo hown
  cases hgo
  refine h.write (.inl hheld) (.inr ⟨rfl, ?_⟩) ?_ rfl trivial ?_ trivial
  · rw [tagState_receiptTag hown.gen (by decide)]
    decide
  · exact receiptOk_idle rfl hown.gen hown.booked hown.live
  · exact .plain nofun nofun (by rw [tagGen_receiptTag hown.gen (by decide), hown.tagGen_eq]) rfl

/-! #### Resizing -/

theorem adjustTry {token amount : ℕ} (hpc : (c.threads t).pc = .adjustTry r token amount) :
    After c es t m' l' ev := by
  have hrc := h.receipts r
  obtain ⟨⟨htoken, hamount, hmoved⟩, hheld, hgo⟩ := h.enter hgo hpc
  dsimp only [Charge.go] at hgo
  split at hgo
  · rename_i htag
    have hstate : tagState (c.shared.receipt r).tag = receiptActive := by
      rw [htag]
      exact tagState_receiptTag htoken (by decide)
    obtain ⟨hbooked, hlive⟩ := hrc.active hstate
    obtain ⟨rfl, rfl, rfl⟩ := stay_eq hgo
    refine h.write (.inr ⟨hheld, ?_⟩) (.inl rfl) ?_ rfl ?_ (.plain nofun nofun ?_ rfl) trivial
    · rw [hstate]
      decide
    · exact receiptOk_busy rfl htoken hrc.fits hrc.nodup
    · unfold Knows
      dsimp only [Local.goto]
      rw [Mem.setReceipt_self]
      exact ⟨⟨rfl, htoken, hbooked, hlive⟩, hamount, hmoved⟩
    · rw [tagGen_receiptTag htoken (by decide), htag, tagGen_receiptTag htoken (by decide)]
  · cases hgo
    exact h.quiet rfl rfl hheld rfl trivial nofun nofun fun _ => hmoved

theorem adjusting {token amount : ℕ} (hpc : (c.threads t).pc = .adjusting r token amount) :
    After c es t m' l' ev := by
  have hrc := h.receipts r
  obtain ⟨⟨hown, hamount, hmoved⟩, hheld, hgo⟩ := h.enter hgo hpc
  dsimp only [Charge.go] at hgo
  split at hgo
  · obtain ⟨rfl, rfl, rfl⟩ := stay_eq hgo
    exact h.keep hheld rfl ⟨hown, fun _ => hmoved⟩
  rename_i htype
  split at hgo
  · obtain ⟨rfl, rfl, rfl⟩ := stay_eq hgo
    exact h.keep hheld rfl ⟨hown, fun _ => hmoved⟩
  split at hgo
  · obtain ⟨rfl, rfl, rfl⟩ := stay_eq hgo
    exact h.keep hheld rfl ⟨hown, fun _ => hmoved⟩
  · rename_i m₁ hresize
    obtain ⟨hreceipt, husage, hbound⟩ := Mem.resizeLocked_ok hresize
    have hperm := adjustSortBlocks_perm (hown.booked ▸ hrc.nodup)
    obtain ⟨rfl, rfl, rfl⟩ := stay_eq hgo
    refine h.put hreceipt (.inl hheld) (.inl rfl) ?_ ?_ (hbound h.bound) ?_
      (.plain nofun nofun rfl rfl) trivial
    · exact receiptOk_busy hown.tag hown.gen (fun _ => ⟨hamount, Nat.not_le.mp htype⟩) hrc.nodup
    · intro x ty
      rw [husage, hperm.count_eq]
      unfold part
      dsimp only
      rw [hown.booked]
      split <;> ring
    · unfold Knows
      dsimp only [Local.goto]
      rw [Mem.setReceipt_self]
      exact ⟨⟨hown.tag, hown.gen, hown.booked, hown.live⟩, fun hne => absurd rfl hne⟩

theorem republish {st : Status} (hpc : (c.threads t).pc = .republish r token st) :
    After c es t m' l' ev := by
  have hrc := h.receipts r
  obtain ⟨⟨hown, hmoved⟩, hheld, hgo⟩ := h.enter hgo hpc
  dsimp only [Charge.go] at hgo
  cases hgo
  refine h.write (.inl hheld) (.inr ⟨rfl, ?_⟩) ?_ rfl trivial ?_ hmoved
  · rw [tagState_receiptTag hown.gen (by decide)]
    decide
  · exact receiptOk_active rfl hown.gen hown.booked hown.live hrc.fits hrc.nodup
  · exact .plain nofun nofun (by rw [tagGen_receiptTag hown.gen (by decide), hown.tagGen_eq]) rfl

/-! #### Any step -/

theorem go : After c es t m' l' ev := by
  cases hpc : (c.threads t).pc with
  | idle =>
    unfold Charge.go at hgo
    rw [hpc] at hgo
    cases hgo
  | chargeLoad r type amount => exact h.chargeLoad hgo hpc
  | chargeTry r type amount claim => exact h.chargeTry hgo hpc
  | chargeFill r type amount gen => exact h.chargeFill hgo hpc
  | chargeGate r gen => exact h.chargeGate hgo hpc
  | chargeChain r gen => exact h.chargeChain hgo hpc
  | charging r gen i => exact h.charging hgo hpc
  | unwinding r gen i j st => exact h.unwinding hgo hpc
  | chargeRelease r gen st => exact h.chargeRelease hgo hpc
  | publish r gen => exact h.publish hgo hpc
  | returnTry r token => exact h.returnTry hgo hpc
  | returnLoad r token left => exact h.returnLoad hgo hpc
  | returnSpin r token left => exact h.returnSpin hgo hpc
  | returnLast r token => exact h.returnLast hgo hpc
  | crediting r token i => exact h.crediting hgo hpc
  | returnRelease r token => exact h.returnRelease hgo hpc
  | adjustTry r token amount => exact h.adjustTry hgo hpc
  | adjusting r token amount => exact h.adjusting hgo hpc
  | republish r token st => exact h.republish hgo hpc

end

end ChargeOk

namespace ChargeOk

variable {c : State Tid Rid Block} {es : List (Tid × Event Rid Block)} {t : Tid}
  {m' : Mem Rid Block} {l' : Local Rid Block} {ev : Event Rid Block}

theorem start (h : ChargeOk c es) {turn : Turn Rid Block} (hpc : (c.threads t).pc = .idle)
    (hstart : Charge.start c.shared (c.threads t) turn = some ((m', l'), ev)) :
    After c es t m' l' ev := by
  have hheld : (c.threads t).pc.held = none := by rw [hpc]; rfl
  cases turn with
  | charge r type amount flags =>
    simp only [Charge.start] at hstart
    split at hstart
    · cases hstart
      exact h.quiet rfl rfl hheld rfl trivial nofun nofun rfl
    split at hstart
    · cases hstart
      exact h.quiet rfl rfl hheld rfl trivial nofun nofun rfl
    split at hstart
    · cases hstart
      exact h.quiet rfl rfl hheld rfl trivial nofun nofun rfl
    · cases hstart
      exact h.quiet rfl rfl hheld rfl rfl nofun nofun trivial
  | giveBack r token =>
    simp only [Charge.start] at hstart
    split at hstart
    · cases hstart
      exact h.quiet rfl rfl hheld rfl trivial nofun nofun trivial
    · rename_i htoken
      cases hstart
      refine h.quiet rfl rfl hheld rfl ?_ nofun nofun trivial
      exact Nat.not_lt.mp (not_or.mp htoken).2
  | adjust r token amount =>
    simp only [Charge.start] at hstart
    split at hstart
    · cases hstart
      exact h.quiet rfl rfl hheld rfl trivial nofun nofun fun _ => rfl
    rename_i htoken
    split at hstart
    · cases hstart
      exact h.quiet rfl rfl hheld rfl trivial nofun nofun fun _ => rfl
    · rename_i hamount
      cases hstart
      refine h.quiet rfl rfl hheld rfl ?_ nofun nofun trivial
      exact ⟨Nat.not_lt.mp (not_or.mp htoken).2, Nat.not_lt.mp hamount, rfl⟩
  | setLimit b type v =>
    cases hstart
    refine h.quiet rfl rfl hheld hheld ?_ nofun nofun trivial
    exact (h.knows t).frame fun _ _ => rfl
  | go env => cases hstart

theorem limit (h : ChargeOk c es) (b : Block) (type : ℕ) (v : ℤ) :
    After c es t (c.shared.setLimit b type v) (c.threads t) .silent := by
  have hknows : Knows (c.shared.setLimit b type v) (c.threads t) :=
    (h.knows t).frame fun _ _ => rfl
  cases hheld : (c.threads t).pc.held with
  | none => exact h.quiet rfl rfl hheld hheld hknows nofun nofun trivial
  | some r =>
    refine h.act r (.inl hheld) (.inl hheld) (fun _ _ => rfl) (h.receipts r) ?_ h.bound hknows
      (.plain nofun nofun rfl rfl) trivial
    intro x ty
    exact (by rw [sub_self, add_zero] : c.shared.usage x ty =
      c.shared.usage x ty + (part (c.shared.receipt r) x ty - part (c.shared.receipt r) x ty))

theorem thread (h : ChargeOk c es) {turn : Turn Rid Block}
    (hthread : Charge.thread c.shared (c.threads t) turn = some ((m', l'), ev)) :
    After c es t m' l' ev := by
  unfold Charge.thread at hthread
  split at hthread
  · exact h.go hthread
  · cases hthread
    exact h.limit _ _ _
  · rename_i hpc
    exact h.start hpc hthread
  · cases hthread

end ChargeOk

omit [DecidableEq Tid] in
theorem initial_ok (limit : Block → ℕ → ℤ) : ChargeOk (initial limit : State Tid Rid Block) [] := by
  have htag : (0 : ℕ) = receiptTag 0 receiptIdle := by decide
  refine ⟨fun _ => receiptOk_idle htag (by decide) rfl rfl, ?_, ?_, fun _ => trivial, nofun, ?_, ?_,
    nofun⟩
  · intro b type
    exact (Finset.sum_eq_zero fun r _ => part_nil rfl b type).symm
  · intro b type
    exact Int.natCast_nonneg amountMax
  · intro r hbusy
    have hidle : tagState 0 ≠ receiptBusy := by decide
    exact absurd hbusy hidle
  · intro r g
    have hgen : tagGen 0 = 0 := by decide
    change countP _ [] = (if 0 < g ∧ g ≤ tagGen 0 then 1 else 0) ∧
      countP _ [] + 0 = countP _ []
    rw [hgen, if_neg (by omega)]
    exact ⟨rfl, rfl⟩

theorem run_chargeOk {limit : Block → ℕ → ℤ} {turns : List (Tid × Turn Rid Block)}
    {c : State Tid Rid Block} {es : List (Tid × Event Rid Block)}
    (hrun : Refine.run (step Charge.thread) (initial limit) turns = some (c, es)) :
    ChargeOk c es := by
  have hkeeps := @Refine.run_invariant _ _ _ (step Charge.thread) turns (fun _ _ => True)
    (fun c es => ChargeOk c es) (by
      intro c es i c' e h _ hstep
      obtain ⟨m, l, ev, hthread, rfl, rfl⟩ := step_eq_some.mp hstep
      exact h.thread hthread) (initial limit) c [] es (initial_ok limit)
    (Refine.along_true _ _ _) hrun
  exact hkeeps

/-! ### What holds when no call is in flight -/

local instance lawfulBlock : LawfulBEq Block := inferInstance

def activeAmount (rc : Receipt Block) (b : Block) (type : ℕ) : ℤ :=
  if tagState rc.tag = receiptActive ∧ type = rc.type ∧ b ∈ rc.blocks then rc.amount else 0

theorem part_free {rc : Receipt Block} (h : ReceiptOk rc) (hfree : tagState rc.tag ≠ receiptBusy)
    (b : Block) (type : ℕ) : part rc b type = activeAmount rc b type := by
  obtain ⟨gen, state, hgen, hstate, htag⟩ := h.tag
  have heq : tagState rc.tag = state := by
    rw [htag]
    exact tagState_receiptTag hgen hstate
  unfold activeAmount
  rcases eq_or_ne (tagState rc.tag) receiptActive with hactive | hactive
  · obtain ⟨hbooked, -⟩ := h.active hactive
    have hnodup := h.nodup
    rw [hbooked] at hnodup
    unfold part
    rw [hbooked]
    by_cases htype : type = rc.type
    · by_cases hb : b ∈ rc.blocks
      · rw [if_pos htype, if_pos ⟨hactive, htype, hb⟩, count_eq_one_of_mem hnodup hb]
        simp
      · rw [if_pos htype, if_neg (fun hall => hb hall.2.2), count_eq_zero_of_not_mem hb]
        simp
    · rw [if_neg htype, if_neg (fun hall => htype hall.2.1)]
  · have hidle : tagState rc.tag = receiptIdle := by
      simp only [receiptBusy, receiptActive, receiptIdle] at *
      omega
    rw [part_nil (h.idle hidle).1, if_neg (fun hall => hactive hall.1)]

/-- For every interleaving of charges, returns and resizes. -/
theorem quota_charge_conserved {limit : Block → ℕ → ℤ} {turns : List (Tid × Turn Rid Block)}
    {c : State Tid Rid Block} {es : List (Tid × Event Rid Block)}
    (hrun : Refine.run (step Charge.thread) (initial limit) turns = some (c, es)) :
    ((∀ t, (c.threads t).pc = .idle) → ∀ b type,
        c.shared.usage b type = ∑ r, activeAmount (c.shared.receipt r) b type) ∧
      (∀ b type, 0 ≤ c.shared.usage b type ∧ c.shared.usage b type ≤ amountMax) ∧
      (∀ e ∈ es, e.2.Fair) ∧ ∀ r gen, es.countP (isTaken r gen) ≤ es.countP (isCharged r gen) ∧
        es.countP (isCharged r gen) ≤ 1 := by
  have h := run_chargeOk hrun
  refine ⟨?_, ?_, h.fair, ?_⟩
  · intro hidle b type
    rw [h.usage]
    refine Finset.sum_congr rfl fun r _ => part_free (h.receipts r) ?_ b type
    intro hbusy
    obtain ⟨t, ht⟩ := h.owner r hbusy
    rw [hidle t] at ht
    cases ht
  · intro b type
    refine ⟨?_, h.bound b type⟩
    rw [h.usage]
    exact Finset.sum_nonneg fun r _ => part_nonneg _ b type
  · intro r gen
    obtain ⟨hissued, htaken⟩ := h.history r gen
    refine ⟨by omega, ?_⟩
    rw [hissued]
    split <;> omega

/-- A process with a block of its own, block `0`, and a user's, block `1`. -/
def sampleEnv : Env ℕ := ⟨true, false, some 0, some 1, none, true⟩

local instance neZeroOne : NeZero 1 := ⟨by decide⟩

/-- One thread charges 5 and resizes the charge to 7, while another one tries to return it. -/
def sampleTurns : List (Fin 2 × Turn (Fin 1) ℕ) :=
  [(0, Turn.charge 0 3 5 0)] ++ List.replicate 9 (0, Turn.go sampleEnv) ++
    [(0, Turn.adjust 0 1 7), (0, Turn.go sampleEnv), (1, Turn.giveBack 0 1), (1, Turn.go sampleEnv),
      (0, Turn.go sampleEnv), (0, Turn.go sampleEnv)]

theorem quota_charge_conserved_sample : ∃ (c : State (Fin 2) (Fin 1) ℕ)
    (es : List (Fin 2 × Event (Fin 1) ℕ)),
    Refine.run (step Charge.thread) (initial fun _ _ => 0) sampleTurns = some (c, es) ∧
      c.shared.usage 1 3 = 7 ∧ 0 ≤ c.shared.usage 1 3 ∧ es.countP (isTaken 0 1) ≤ 1 := by
  have hsome : (Refine.run (step Charge.thread)
      (initial (fun _ _ => 0) : State (Fin 2) (Fin 1) ℕ) sampleTurns).map
      (fun p => p.1.shared.usage 1 3) = some 7 := by
    decide
  obtain ⟨⟨c, es⟩, hrun, husage⟩ := Option.map_eq_some_iff.mp hsome
  obtain ⟨-, hbound, -, hcount⟩ := quota_charge_conserved hrun
  exact ⟨c, es, hrun, husage, (hbound 1 3).1, (hcount 0 1).1.trans (hcount 0 1).2⟩

end Runs

end ImpossibleOs.Quota.Charge
