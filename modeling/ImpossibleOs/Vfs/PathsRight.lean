import ImpossibleOs.Vfs.Paths

/-!
When the calls act on the directory that their path names.

What the code looks up are the components of what is left in its buffer, each cut
to 255 bytes.
-/

namespace ImpossibleOs.Vfs

open Split List Nat
open Option hiding map_id' mem_map

/-! ### The split -/

theorem nameLoop_concat (l : List UInt8) (c : UInt8) (p name : ℕ) :
    nameLoop (l ++ [c]) p name = if isSep c then p + l.length + 1 else nameLoop l p name := by
  induction l generalizing p name with
  | nil => rfl
  | cons x l ih =>
    rw [cons_append, nameLoop, ih, nameLoop, length_cons, Nat.add_right_comm p]
    rfl

theorem nameLoop_eq (rest : List UInt8) : nameLoop rest 0 0 = (dirPart rest).length := by
  induction rest using reverseRecOn with
  | nil => rfl
  | append_singleton l c ih =>
    rw [nameLoop_concat, dirPart, rdropWhile_concat]
    cases hc : isSep c with
    | true => simp
    | false => exact ih

theorem dirPart_append_lastName (rest : List UInt8) : dirPart rest ++ lastName rest = rest :=
  rdropWhile_append_rtakeWhile

theorem drop_dirPart (rest : List UInt8) : rest.drop (dirPart rest).length = lastName rest := by
  conv_lhs => arg 2; rw [← dirPart_append_lastName rest]
  exact drop_left

/-- The length that the code computes. -/
def dirLen (rest : List UInt8) : ℕ := (dirPart rest).length % 2 ^ 32

def lookedUp (rest : List UInt8) : List (List UInt8) :=
  (components isSep ((dirPart rest).take (dirLen rest - 1))).map fun c => c.take (vfsMaxName - 1)

variable {rest : List UInt8} {k : ℕ}

theorem dirPart_take (hk : k ≤ dirLen rest) : rest.take k = (dirPart rest).take k := by
  have hle : k ≤ (dirPart rest).length := hk.trans (mod_le _ _)
  conv_lhs => rw [← dirPart_append_lastName rest]
  exact take_append_of_le_length hle

theorem cString_append_zero {l r : List UInt8} (hl : ∀ b ∈ l, b ≠ 0) :
    cString (l ++ 0 :: r) = l := by
  have hall : ∀ b ∈ l, decide (b ≠ 0) = true := fun b hb => decide_eq_true (hl b hb)
  rw [cString, takeWhile_append_of_pos hall]
  simp

theorem cString_set_zero {buf : List UInt8} (hk : k < buf.length)
    (hbuf : ∀ b ∈ buf.take k, b ≠ 0) : cString (buf.set k 0) = buf.take k := by
  rw [set_eq_take_append_cons_drop, if_pos hk, cString_append_zero hbuf]

theorem length_strCopy {dst : List UInt8} (src : List UInt8) {max : ℕ} (hpos : 0 < max)
    (hmax : max ≤ dst.length) : (strCopy dst src max).length = dst.length := by
  have hle : (src.take (max - 1)).length ≤ max - 1 := length_take_le _ _
  simp only [strCopy, length_append, length_cons, length_drop]
  omega

theorem strCopy_take {dst src : List UInt8} {max k : ℕ} (hk : k ≤ max - 1)
    (hsrc : k ≤ src.length) : (strCopy dst src max).take k = src.take k := by
  have hlen : k ≤ (src.take (max - 1)).length := by
    rw [length_take]
    omega
  rw [strCopy, take_append_of_le_length hlen, take_take, Nat.min_eq_left hk]

structure SplitDone (rest : List UInt8) (sp : PathSplit) : Prop where
  len : sp.len = dirLen rest
  buffer : sp.parentPath.length = vfsMaxPath
  parent : 0 < sp.len → cString sp.parentPath = (dirPart rest).take (dirLen rest - 1)
  name : sp.name = lastName rest

theorem splitPath_spec {buf rest : List UInt8} (hbuf : buf.length = vfsMaxPath)
    (hrest : ∀ b ∈ rest, b ≠ 0) :
    if dirLen rest ≤ vfsMaxPath then ∃ sp, splitPath buf rest = some sp ∧ SplitDone rest sp
    else splitPath buf rest = none := by
  have hlen : nameLoop rest 0 0 % 2 ^ 32 = dirLen rest := by rw [nameLoop_eq, dirLen]
  have hname : rest.drop (nameLoop rest 0 0) = lastName rest := by rw [nameLoop_eq, drop_dirPart]
  have hmod : dirLen rest ≤ rest.length :=
    (mod_le _ _).trans (IsPrefix.length_le <| rdropWhile_prefix _ _)
  unfold splitPath
  simp only [hlen, hname]
  generalize hmax : (if dirLen rest < vfsMaxPath then dirLen rest + 1 else vfsMaxPath) = max
  have hmaxle : max ≤ vfsMaxPath ∧ 0 < max ∧ (dirLen rest ≤ vfsMaxPath → dirLen rest ≤ max) := by
    have hpath : 0 < vfsMaxPath := by decide
    rw [← hmax]
    split
    · exact ⟨by omega, by omega, fun _ => by omega⟩
    · exact ⟨le_rfl, hpath, id⟩
  obtain ⟨hle, hpos, hcopied⟩ := hmaxle
  have hcopy : (strCopy buf rest max).length = vfsMaxPath :=
    (length_strCopy rest hpos (hle.trans hbuf.ge)).trans hbuf
  by_cases hzero : 0 < dirLen rest
  · rw [if_pos hzero, hcopy]
    by_cases hfits : dirLen rest ≤ vfsMaxPath
    · have hindex : dirLen rest - 1 < vfsMaxPath := by omega
      have htake : (strCopy buf rest max).take (dirLen rest - 1) =
          rest.take (dirLen rest - 1) :=
        strCopy_take (Nat.sub_le_sub_right (hcopied hfits) 1) (by omega)
      rw [if_pos hfits, if_pos hindex]
      refine ⟨_, rfl, rfl, ?_, fun _ => ?_, rfl⟩
      · rw [length_set, hcopy]
      · show cString ((strCopy buf rest max).set _ 0) = _
        rw [cString_set_zero (hcopy ▸ hindex), htake, dirPart_take (sub_le _ _)]
        rw [htake]
        exact fun b hb => hrest b (mem_of_mem_take hb)
    · rw [if_neg hfits, if_neg (by omega)]
  · rw [if_neg hzero, if_pos (by omega)]
    exact ⟨_, rfl, rfl, hbuf, fun h => absurd h hzero, rfl⟩

section
variable {σ N Obj : Type} {fs : FileSystems σ N} {m : Meaning σ N Obj}

/-- The lookup of names one after the other. -/
def lookupAll (fs : FileSystems σ N) (s : σ) (current : N) :
    (names : List (List UInt8)) → σ × Option N
  | [] => (s, some current)
  | name :: names =>
    if fs.hasFinddir current then
      match fs.finddir s current name with
      | (s, none) => (s, none)
      | (s, some child) => lookupAll fs s child names
    else (s, none)

theorem walkPath_eq (s : σ) (current : N) (p pre : List UInt8) (hpre : ∀ c ∈ pre, isSep c = false) :
    walkPath fs s current p (pre.take (vfsMaxName - 1)) = lookupAll fs s current
        ((components isSep (pre ++ p)).map fun c => c.take (vfsMaxName - 1)) := by
  have hempty : ∀ l : List UInt8, l.take (vfsMaxName - 1) = [] ↔ l = [] := by
    intro l
    rw [take_eq_nil_iff]
    exact or_iff_right (by decide)
  have hpiece : pre ≠ [] → components isSep pre = [pre] := fun h => components_piece ⟨h, hpre⟩
  induction p generalizing s current pre with
  | nil =>
    rw [append_nil, walkPath]
    by_cases hnil : pre = []
    · rw [if_pos ((hempty pre).mpr hnil), hnil]
      rfl
    · rw [if_neg (mt (hempty pre).mp hnil), hpiece hnil, map_singleton, lookupAll]
      split
      · rcases fs.finddir s current _ with ⟨s', _ | child⟩ <;> rfl
      · rfl
  | cons c p ih =>
    rw [walkPath]
    cases hc : isSep c with
    | true =>
      have hstart : ∀ s current, walkPath fs s current p [] = lookupAll fs s current
          ((components isSep p).map fun c => c.take (vfsMaxName - 1)) :=
        fun s current => ih s current [] nofun fun h => absurd rfl h
      rw [if_pos rfl, components_append_cons hc]
      by_cases hnil : pre = []
      · rw [if_pos ((hempty pre).mpr hnil), hnil]
        exact hstart s current
      · rw [if_neg (mt (hempty pre).mp hnil), hpiece hnil, singleton_append,
          map_cons, lookupAll]
        split
        · rcases fs.finddir s current _ with ⟨s', _ | child⟩
          · rfl
          · exact hstart s' child
        · rfl
    | false =>
      have hnext : (if (pre.take (vfsMaxName - 1)).length < vfsMaxName - 1 then
          pre.take (vfsMaxName - 1) ++ [c] else pre.take (vfsMaxName - 1)) =
          (pre ++ [c]).take (vfsMaxName - 1) := by
        rw [length_take]
        split
        · rename_i hlt
          have hshort : pre.length < vfsMaxName - 1 := by omega
          rw [take_of_length_le hshort.le, take_of_length_le]
          rw [length_append, length_singleton]
          exact hshort
        · rename_i hge
          rw [take_append_of_le_length (by omega)]
      have hclean : ∀ x ∈ pre ++ [c], isSep x = false := by
        intro x hx
        rcases mem_append.mp hx with hx | hx
        · exact hpre x hx
        · exact mem_singleton.mp hx ▸ hc
      rw [if_neg Bool.false_ne_true, hnext,
        ih s current (pre ++ [c]) hclean fun h => components_piece ⟨h, hclean⟩,
        append_assoc, singleton_append]

theorem walkParent_eq {rest : List UInt8} {sp : PathSplit} (h : SplitDone rest sp) (s : σ)
    (root : N) : walkParent fs s root sp = lookupAll fs s root (lookedUp rest) := by
  rw [walkParent, lookedUp]
  split
  · rename_i hpos
    rw [h.parent hpos]
    exact walkPath_eq s root _ [] nofun
  · rename_i hzero
    have hlen : dirLen rest = 0 := by
      have hsp := h.len
      omega
    rw [hlen]
    rfl

theorem Lawful.lookupAll (h : Lawful fs m) {names : List (List UInt8)} {s s' : σ} {n n' : N}
    {obj : Obj} (hn : m.standsFor s n = some obj)
    (hfound : lookupAll fs s n names = (s', some n')) :
    ∃ obj', names.foldlM m.child obj = some obj' ∧ m.standsFor s' n' = some obj' := by
  induction names generalizing s n obj with
  | nil =>
    obtain ⟨rfl, hsome⟩ := Prod.mk.inj hfound
    obtain rfl := some.inj hsome
    exact ⟨obj, rfl, hn⟩
  | cons name names ih =>
    rw [ImpossibleOs.Vfs.lookupAll] at hfound
    split at hfound
    · have hchild := h.finddir s n name obj
      rcases hfind : fs.finddir s n name with ⟨s₁, _ | child⟩
      · rw [hfind] at hfound
        cases hfound
      · rw [hfind] at hfound hchild
        obtain ⟨obj₁, hstep, hstands⟩ := hchild child hn rfl
        obtain ⟨obj', hrest, hdone⟩ := ih hstands hfound
        refine ⟨obj', ?_, hdone⟩
        rw [foldlM_cons, hstep]
        exact hrest
    · cases hfound

theorem Lawful.fromRoot (h : Lawful fs m) {idx : Fin vfsMaxDrives} {root : N}
    (hroot : fs.root idx = some root) {names : List (List UInt8)} {s s' : σ} {n' : N}
    (hfound : ImpossibleOs.Vfs.lookupAll fs s root names = (s', some n')) :
    ∃ obj, m.denoted idx names = some obj ∧ m.standsFor s' n' = some obj :=
  h.lookupAll (h.root s idx root hroot) hfound

end

/-! ### Paths that are looked up as they are -/

/-- The part up to the last separator fits the buffer, its length does not wrap to one that leaves
components out, and no component is cut. -/
structure WellSplit (rest : List UInt8) : Prop where
  fits : dirLen rest ≤ vfsMaxPath
  kept : components isSep ((dirPart rest).take (dirLen rest - 1)) = dirComponents rest
  short : ∀ c ∈ dirComponents rest, c.length < vfsMaxName

theorem components_dirPart_take (rest : List UInt8) :
    components isSep ((dirPart rest).take ((dirPart rest).length - 1)) = dirComponents rest := by
  rw [← dropLast_eq_take, dirComponents]
  rcases eq_or_ne (dirPart rest) [] with hnil | hne
  · rw [hnil]
    rfl
  · have hsep : isSep ((dirPart rest).getLast hne) = true := by
      have hlast := rdropWhile_last_not (fun c => !isSep c) rest hne
      rw [Bool.not_eq_true, Bool.not_eq_false'] at hlast
      exact hlast
    conv_rhs => rw [← dropLast_append_getLast hne]
    rw [components_append_cons hsep, components_nil, append_nil]

theorem wellSplit_iff (hlen : (dirPart rest).length < 2 ^ 32) : WellSplit rest ↔
      (dirPart rest).length ≤ vfsMaxPath ∧ ∀ c ∈ dirComponents rest, c.length < vfsMaxName := by
  have heq : dirLen rest = (dirPart rest).length := mod_eq_of_lt hlen
  constructor
  · exact fun h => ⟨heq ▸ h.fits, h.short⟩
  · rintro ⟨hfits, hshort⟩
    exact ⟨heq ▸ hfits, heq ▸ components_dirPart_take rest, hshort⟩

theorem map_take_of_short {l : List (List UInt8)} (h : ∀ c ∈ l, c.length < vfsMaxName) :
    (l.map fun c => c.take (vfsMaxName - 1)) = l := by
  rw [map_congr_left fun c hc => take_of_length_le (le_sub_one_of_lt (h c hc)),
    map_id']

theorem map_take_eq_self {l : List (List UInt8)}
    (h : l.flatten.length ≤ (l.map fun c => c.take k).flatten.length) :
    (l.map fun c => c.take k) = l := by
  have hle : ∀ l : List (List UInt8), (l.map fun c => c.take k).flatten.length ≤
      l.flatten.length := by
    intro l
    induction l with
    | nil => exact le_rfl
    | cons c l ih =>
      rw [map_cons, flatten_cons, flatten_cons, length_append,
        length_append]
      exact Nat.add_le_add (length_take_le' k c) ih
  induction l with
  | nil => rfl
  | cons c l ih =>
    rw [map_cons, flatten_cons, flatten_cons, length_append,
      length_append] at h
    have hhead := length_take_le' k c
    have htail := hle l
    rw [map_cons, ih (by omega), take_of_length_le]
    rw [length_take] at h hhead
    omega

theorem lookedUp_eq_iff (hfits : dirLen rest ≤ vfsMaxPath) :
    lookedUp rest = dirComponents rest ↔ WellSplit rest := by
  constructor
  · intro heq
    have hsame : lookedUp rest =
        components isSep ((dirPart rest).take (dirLen rest - 1)) := by
      apply map_take_eq_self
      rw [← lookedUp, heq, dirComponents, flatten_components, flatten_components]
      exact ((take_sublist _ _).filter _).length_le
    refine ⟨hfits, hsame.symm.trans heq, fun c hc => ?_⟩
    rw [← heq, lookedUp, mem_map] at hc
    obtain ⟨piece, -, rfl⟩ := hc
    exact (length_take_le _ _).trans_lt (by decide)
  · intro h
    rw [lookedUp, h.kept, map_take_of_short h.short]

/-! ### The calls -/

section
variable {σ N Obj : Type} {fs : FileSystems σ N} {m : Meaning σ N Obj} {s : σ}
  {buf : List UInt8} {path path' : CString} {idx : Fin vfsMaxDrives} {rest : List UInt8} {root : N}

def Splits (path : CString) : Prop :=
  ∀ idx rest, parseDrive path = some (idx, rest) → WellSplit rest

theorem parseDrive_ne_zero (h : parseDrive path = some (idx, rest)) : ∀ b ∈ rest, b ≠ 0 := by
  unfold parseDrive at h
  split at h
  · cases h
  split at h
  · cases h
  obtain ⟨i, -, heq⟩ := Option.map_eq_some_iff.mp h
  obtain ⟨-, rfl⟩ := Prod.mk.inj heq
  intro b hb
  split at hb
  · exact path.ne_zero b (mem_of_mem_drop hb)
  · exact path.ne_zero b (mem_of_mem_drop hb)

theorem mountOf_eq_some {r : N × List UInt8} (h : mountOf fs path = some r) :
    ∃ idx, parseDrive path = some (idx, r.2) ∧ fs.root idx = some r.1 := by
  unfold mountOf at h
  split at h
  · cases h
  · rename_i idx rest hparse
    obtain ⟨root, hroot, rfl⟩ := Option.map_eq_some_iff.mp h
    exact ⟨idx, hparse, hroot⟩

theorem Lawful.parent (h : Lawful fs m) (hroot : fs.root idx = some root) (hsplit : WellSplit rest)
    {sp : PathSplit} (hdone : SplitDone rest sp) {s' : σ} {n : N}
    (hwalk : walkParent fs s root sp = (s', some n)) :
    ∃ obj, m.denoted idx (dirComponents rest) = some obj ∧ m.standsFor s' n = some obj := by
  rw [walkParent_eq hdone, (lookedUp_eq_iff hsplit.fits).mpr hsplit] at hwalk
  exact h.fromRoot hroot hwalk

theorem Lawful.acts (h : Lawful fs m) (hparse : parseDrive path = some (idx, rest))
    (hroot : fs.root idx = some root) (hsplit : WellSplit rest) {sp : PathSplit}
    (hdone : SplitDone rest sp) {s' : σ} {n : N}
    (hwalk : walkParent fs s root sp = (s', some n)) : Acts m [path] (.call s' n [sp.name]) := by
  obtain ⟨obj, hobj, hstands⟩ := h.parent hroot hsplit hdone hwalk
  exact .cons ⟨idx, rest, obj, hparse, hdone.name, hobj, hstands⟩ .nil

theorem WellSplit.splitPath (h : WellSplit rest) (hbuf : buf.length = vfsMaxPath)
    (hparse : parseDrive path = some (idx, rest)) :
    ∃ sp, splitPath buf rest = some sp ∧ SplitDone rest sp := by
  have hspec := splitPath_spec hbuf (parseDrive_ne_zero hparse)
  rwa [if_pos h.fits] at hspec

theorem vfsCreate_acts (h : Lawful fs m) (hbuf : buf.length = vfsMaxPath) (hpath : Splits path) :
    Acts m [path] (vfsCreate fs s buf path) := by
  unfold vfsCreate
  split
  · trivial
  rename_i root rest hmount
  obtain ⟨idx, hparse, hroot⟩ := mountOf_eq_some hmount
  have hsplit := hpath idx rest hparse
  obtain ⟨sp, hsp, hdone⟩ := hsplit.splitPath hbuf hparse
  rw [hsp]
  dsimp only
  split
  · trivial
  rename_i s' parent hwalk
  split
  · exact h.acts hparse hroot hsplit hdone hwalk
  · trivial

theorem vfsUnlink_acts (h : Lawful fs m) (hbuf : buf.length = vfsMaxPath) (hpath : Splits path) :
    Acts m [path] (vfsUnlink fs s buf path) := by
  unfold vfsUnlink
  split
  · trivial
  rename_i root rest hmount
  obtain ⟨idx, hparse, hroot⟩ := mountOf_eq_some hmount
  have hsplit := hpath idx rest hparse
  obtain ⟨sp, hsp, hdone⟩ := hsplit.splitPath hbuf hparse
  rw [hsp]
  dsimp only
  split
  · trivial
  rename_i s' parent hwalk
  unfold unlinkIn
  split
  · trivial
  split
  · dsimp only
    split
    · trivial
    split
    · trivial
    rename_i s'' parent' hwalk'
    split
    · exact h.acts hparse hroot hsplit hdone hwalk'
    · trivial
  · exact h.acts hparse hroot hsplit hdone hwalk

/-- The two paths of a rename name the same directory, or one of them the root. -/
def SameParent (path path' : CString) : Prop :=
  ∀ idx rest rest', parseDrive path = some (idx, rest) → parseDrive path' = some (idx, rest') →
    dirComponents rest = dirComponents rest' ∨ dirComponents rest = [] ∨ dirComponents rest' = []

theorem renameIn_acts {rest' : List UInt8} {obj : Obj} {old new : PathSplit} {n : N}
    (h : Lawful fs m) (hparse : parseDrive path = some (idx, rest))
    (hparse' : parseDrive path' = some (idx, rest')) (hroot : fs.root idx = some root)
    (hsplit' : WellSplit rest') (hold : SplitDone rest old) (hnew : SplitDone rest' new)
    (hobj : m.denoted idx (dirComponents rest) = some obj)
    (hobj' : m.denoted idx (dirComponents rest') = some obj) (hn : m.standsFor s n = some obj)
    (replaceExisting : Bool) :
    Acts m [path, path'] (renameIn fs s root n old.name new replaceExisting) := by
  have hcall : ∀ s n, m.standsFor s n = some obj →
      Acts m [path, path'] (.call s n [old.name, new.name]) := fun s n hn =>
    .cons ⟨idx, rest, obj, hparse, hold.name, hobj, hn⟩
      (.cons ⟨idx, rest', obj, hparse', hnew.name, hobj', hn⟩ .nil)
  unfold renameIn
  split
  · trivial
  split
  · dsimp only
    split
    · trivial
    split
    · trivial
    rename_i s' n' hwalk
    split
    · obtain ⟨obj₁, hobj₁, hstands⟩ := h.parent hroot hsplit' hnew hwalk
      obtain rfl := some.inj (hobj₁.symm.trans hobj')
      exact hcall s' n' hstands
    · trivial
  · exact hcall s n hn

theorem vfsRename_acts [DecidableEq N] (h : Lawful fs m) (hbuf : buf.length = vfsMaxPath)
    (hpath : Splits path) (hpath' : Splits path') (hsame : SameParent path path')
    (replaceExisting : Bool) :
    Acts m [path, path'] (vfsRename fs s buf path path' replaceExisting) := by
  unfold vfsRename
  split
  swap
  · trivial
  rename_i idx rest idx' rest' hparse hparse'
  split
  · trivial
  rename_i hidx
  obtain rfl := not_not.mp hidx
  split
  · trivial
  rename_i root hroot
  have hsplit := hpath idx rest hparse
  have hsplit' := hpath' idx rest' hparse'
  obtain ⟨old, hold, holdDone⟩ := hsplit.splitPath hbuf hparse
  rw [hold]
  dsimp only
  rcases hwalk : walkParent fs s root old with ⟨s₁, oldParent⟩
  obtain ⟨new, hnew, hnewDone⟩ := hsplit'.splitPath holdDone.buffer hparse'
  rw [hnew]
  dsimp only
  split
  swap
  · trivial
  rename_i oldParent s₂ newParent hwalk'
  split
  · trivial
  rename_i hparents
  obtain rfl := not_not.mp hparents
  obtain ⟨obj, hobj, hstands⟩ := h.parent hroot hsplit holdDone hwalk
  obtain ⟨obj', hobj', hstands'⟩ := h.parent hroot hsplit' hnewDone hwalk'
  -- the old directory is the one that the node stands for after the second lookup
  have hdir : obj = obj' := by
    rcases hsame idx rest rest' hparse hparse' with heq | hnil | hnil
    · exact some.inj (hobj.symm.trans (heq ▸ hobj'))
    · have hlook : lookedUp rest = [] := ((lookedUp_eq_iff hsplit.fits).mpr hsplit).trans hnil
      rw [walkParent_eq holdDone, hlook] at hwalk
      obtain rfl := some.inj (Prod.mk.inj hwalk).2
      rw [h.root _ idx _ hroot] at hstands hstands'
      exact some.inj (hstands.symm.trans hstands')
    · have hlook : lookedUp rest' = [] := ((lookedUp_eq_iff hsplit'.fits).mpr hsplit').trans hnil
      rw [walkParent_eq hnewDone, hlook] at hwalk'
      obtain rfl := some.inj (Prod.mk.inj hwalk').2
      rw [h.root _ idx _ hroot] at hstands hstands'
      exact some.inj (hstands.symm.trans hstands')
  subst hdir
  exact renameIn_acts h hparse hparse' hroot hsplit' holdDone hnewDone hobj hobj' hstands' _

end

/-! ### File systems that tell -/

def everyChild (obj : List (List UInt8)) (name : List UInt8) : Option (List (List UInt8)) :=
  some (obj ++ [name])

theorem foldlM_everyChild (names obj : List (List UInt8)) :
    names.foldlM everyChild obj = some (obj ++ names) := by
  induction names generalizing obj with
  | nil => rw [append_nil]; rfl
  | cons name names ih => rw [foldlM_cons]; exact (ih _).trans (by simp)

def everyNode : FileSystems Unit (List (List UInt8)) where
  root := fun _ => some []
  finddir := fun s n name => (s, some (n ++ [name]))
  hasFinddir := fun _ => true
  hasCreate := fun _ => true
  hasUnlink := fun _ => true
  hasRename := fun _ => true
  refCount := fun _ _ => 0

def everyNodeMeaning : Meaning Unit (List (List UInt8)) (List (List UInt8)) where
  root := fun _ => []
  child := everyChild
  standsFor := fun _ n => some n

theorem everyNode_lawful : Lawful everyNode everyNodeMeaning := by
  constructor
  · rintro s idx n ⟨⟩
    rfl
  · rintro s n name obj n' ⟨⟩ ⟨⟩
    exact ⟨_, rfl, rfl⟩

theorem lookupAll_everyNode (names n : List (List UInt8)) :
    lookupAll everyNode () n names = ((), some (n ++ names)) := by
  induction names generalizing n with
  | nil => rw [append_nil]; rfl
  | cons name names ih => exact (ih _).trans (by simp)

/-- A file system with one node for all directories but the root: it stands for the one found
last. -/
def oneNode : FileSystems (List (List UInt8)) Bool where
  root := fun _ => some false
  finddir := fun s n name => ((if n then s else []) ++ [name], some true)
  hasFinddir := fun _ => true
  hasCreate := fun _ => true
  hasUnlink := fun _ => true
  hasRename := fun _ => true
  refCount := fun _ _ => 0

def oneNodeMeaning : Meaning (List (List UInt8)) Bool (List (List UInt8)) where
  root := fun _ => []
  child := everyChild
  standsFor := fun s n => some (if n then s else [])

theorem oneNode_lawful : Lawful oneNode oneNodeMeaning := by
  constructor
  · rintro s idx n ⟨⟩
    rfl
  · rintro s n name obj n' ⟨⟩ ⟨⟩
    exact ⟨_, rfl, rfl⟩

theorem lookupAll_oneNode {names : List (List UInt8)} (hne : names ≠ []) (s : List (List UInt8)) :
    lookupAll oneNode s false names = (names, some true) := by
  have hdeep : ∀ names s, lookupAll oneNode s true names = (s ++ names, some true) := by
    intro names
    induction names with
    | nil => intro s; rw [append_nil]; rfl
    | cons name names ih => intro s; exact (ih _).trans (by simp)
  cases names with
  | nil => exact absurd rfl hne
  | cons name names => exact hdeep names [name]

/-- What the stack holds before a call. -/
def zeroBuffer : List UInt8 := List.replicate vfsMaxPath 0

theorem length_zeroBuffer : zeroBuffer.length = vfsMaxPath := length_replicate

theorem splits_of_create {path : CString}
    (h : Acts everyNodeMeaning [path] (vfsCreate everyNode () zeroBuffer path)) : Splits path := by
  intro idx rest hparse
  have hmount : mountOf everyNode path = some ([], rest) := by
    rw [mountOf, hparse]
    rfl
  have hspec := splitPath_spec length_zeroBuffer (parseDrive_ne_zero hparse)
  rw [vfsCreate, hmount] at h
  dsimp only at h
  split at hspec
  · rename_i hfits
    obtain ⟨sp, hsp, hdone⟩ := hspec
    rw [hsp] at h
    dsimp only at h
    rw [walkParent_eq hdone, lookupAll_everyNode, nil_append] at h
    obtain ⟨⟨idx', rest', obj, hparse', -, hobj, hstands⟩, -⟩ := forall₂_cons.mp h
    obtain ⟨rfl, rfl⟩ := Prod.mk.inj (some.inj (hparse.symm.trans hparse'))
    rw [← lookedUp_eq_iff hfits]
    have hdenoted : obj = dirComponents rest :=
      (some.inj ((foldlM_everyChild _ _).symm.trans hobj)).symm
    exact (some.inj hstands).trans hdenoted
  · rw [hspec] at h
    exact h.elim

theorem sameParent_of_rename {path path' : CString} (hpath : Splits path) (hpath' : Splits path')
    (h : Acts oneNodeMeaning [path, path'] (vfsRename oneNode [] zeroBuffer path path' false)) :
    SameParent path path' := by
  intro idx rest rest' hparse hparse'
  by_cases hroot : dirComponents rest = [] ∨ dirComponents rest' = []
  · exact .inr hroot
  obtain ⟨hne, hne'⟩ := not_or.mp hroot
  have hsplit := hpath idx rest hparse
  have hsplit' := hpath' idx rest' hparse'
  obtain ⟨old, hold, holdDone⟩ := hsplit.splitPath length_zeroBuffer hparse
  obtain ⟨new, hnew, hnewDone⟩ := hsplit'.splitPath holdDone.buffer hparse'
  have hwalk : walkParent oneNode [] false old = (dirComponents rest, some true) := by
    rw [walkParent_eq holdDone, (lookedUp_eq_iff hsplit.fits).mpr hsplit, lookupAll_oneNode hne]
  have hwalk' : walkParent oneNode (dirComponents rest) false new =
      (dirComponents rest', some true) := by
    rw [walkParent_eq hnewDone, (lookedUp_eq_iff hsplit'.fits).mpr hsplit', lookupAll_oneNode hne']
  have hcall : vfsRename oneNode [] zeroBuffer path path' false =
      .call (dirComponents rest') true [old.name, new.name] := by
    have hmounted : oneNode.root idx = some false := rfl
    have hrename : oneNode.hasRename true = true := rfl
    simp [vfsRename, hparse, hparse', hmounted, hold, hwalk, hnew, hwalk', renameIn, hrename]
  rw [hcall] at h
  obtain ⟨⟨idx₁, rest₁, obj, hparse₁, -, hobj, hstands⟩, -⟩ := forall₂_cons.mp h
  obtain ⟨rfl, rfl⟩ := Prod.mk.inj (some.inj (hparse.symm.trans hparse₁))
  left
  have hdenoted : obj = dirComponents rest :=
    (some.inj ((foldlM_everyChild _ _).symm.trans hobj)).symm
  exact hdenoted.symm.trans (some.inj hstands).symm

/-! ### The calls on two paths -/

/-- On all lawful file systems, the creates and unlinks of two paths and the rename of one to the
other do nothing or act on the directories that the paths denote. -/
def CallsRight (path path' : CString) : Prop :=
  ∀ (σ N Obj : Type) [DecidableEq N] (fs : FileSystems σ N) (m : Meaning σ N Obj), Lawful fs m →
    ∀ (s : σ) (buf : List UInt8), buf.length = vfsMaxPath →
      (Acts m [path] (vfsCreate fs s buf path) ∧ Acts m [path'] (vfsCreate fs s buf path')) ∧
      (Acts m [path] (vfsUnlink fs s buf path) ∧ Acts m [path'] (vfsUnlink fs s buf path')) ∧
      ∀ replaceExisting,
        Acts m [path, path'] (vfsRename fs s buf path path' replaceExisting)

/-- The calls are right exactly when both paths are well split and name the same parent, or one
of them the root. -/
theorem callsRight_iff (path path' : CString) :
    CallsRight path path' ↔ Splits path ∧ Splits path' ∧ SameParent path path' := by
  constructor
  · intro h
    obtain ⟨⟨hcreate, hcreate'⟩, -⟩ :=
      h _ _ _ everyNode everyNodeMeaning everyNode_lawful () zeroBuffer length_zeroBuffer
    obtain ⟨-, -, hrename⟩ :=
      h _ _ _ oneNode oneNodeMeaning oneNode_lawful [] zeroBuffer length_zeroBuffer
    have hpath := splits_of_create hcreate
    have hpath' := splits_of_create hcreate'
    exact ⟨hpath, hpath', sameParent_of_rename hpath hpath' (hrename false)⟩
  · rintro ⟨hpath, hpath', hsame⟩ σ N Obj _ fs m hlawful s buf hbuf
    exact ⟨⟨vfsCreate_acts hlawful hbuf hpath, vfsCreate_acts hlawful hbuf hpath'⟩,
      ⟨vfsUnlink_acts hlawful hbuf hpath, vfsUnlink_acts hlawful hbuf hpath'⟩,
      fun replaceExisting => vfsRename_acts hlawful hbuf hpath hpath' hsame replaceExisting⟩

/-- A path of drive `C:`. -/
def onDriveC (rest : List UInt8) (h : ∀ b ∈ rest, b ≠ 0) : CString where
  bytes := 0x43 :: colon :: backslash :: rest
  ne_zero := by
    simp only [forall_mem_cons]
    exact ⟨by decide, by decide, by decide, h⟩

theorem parseDrive_onDriveC (rest : List UInt8) (h : ∀ b ∈ rest, b ≠ 0) :
    ∃ idx, parseDrive (onDriveC rest h) = some (idx, rest) := by
  refine ⟨⟨2, by decide⟩, ?_⟩
  have hfirst : (onDriveC rest h).at 0 = 0x43 := rfl
  have hsecond : (onDriveC rest h).at 1 = colon := rfl
  have hthird : (onDriveC rest h).at 2 = backslash := rfl
  have hletter : driveIndex 0x43 = some ⟨2, by decide⟩ := by decide
  have hrest : (onDriveC rest h).bytes.drop 3 = rest := rfl
  simp [parseDrive, hfirst, hsecond, hthird, hletter, hrest]

theorem splits_onDriveC {h : ∀ b ∈ rest, b ≠ 0} : Splits (onDriveC rest h) ↔ WellSplit rest := by
  obtain ⟨idx, hparse⟩ := parseDrive_onDriveC rest h
  constructor
  · exact fun hsplits => hsplits idx rest hparse
  · intro hsplit idx' rest' hparse'
    obtain ⟨-, rfl⟩ := Prod.mk.inj (some.inj (hparse.symm.trans hparse'))
    exact hsplit

/-- The name `f` in a directory whose name has `k` letters. -/
def fileIn (k : ℕ) : List UInt8 := List.replicate k 0x61 ++ [backslash] ++ [0x66]

theorem fileIn_ne_zero (k : ℕ) : ∀ b ∈ fileIn k, b ≠ 0 := by
  intro b hb
  simp only [fileIn, mem_append, mem_replicate, mem_singleton] at hb
  rcases hb with (⟨-, rfl⟩ | rfl) | rfl <;> decide

theorem length_dirPart_fileIn (k : ℕ) : (dirPart (fileIn k)).length = k + 1 := by
  have hletter : ¬ isSep 0x66 = true := by decide
  have hsep : isSep backslash = true := by decide
  rw [← nameLoop_eq, fileIn, nameLoop_concat, if_neg hletter, nameLoop_concat, if_pos hsep,
    length_replicate, Nat.zero_add]

theorem not_wellSplit_fileIn (hk : vfsMaxPath ≤ k) (hlt : k + 1 < 2 ^ 32) :
    ¬ WellSplit (fileIn k) := by
  rw [wellSplit_iff (by rwa [length_dirPart_fileIn]), length_dirPart_fileIn]
  exact fun h => absurd h.1 (by omega)

theorem callsRight_wellSplit {h : ∀ b ∈ rest, b ≠ 0}
    (hright : CallsRight (onDriveC rest h) (onDriveC rest h)) : WellSplit rest := by
  obtain ⟨⟨hcreate, -⟩, -⟩ :=
    hright _ _ _ everyNode everyNodeMeaning everyNode_lawful () zeroBuffer length_zeroBuffer
  exact splits_onDriveC.mp (splits_of_create hcreate)

/-- A create in a directory with a name of 512 letters writes outside the buffer. -/
theorem not_callsRight_long : ¬ CallsRight (onDriveC (fileIn 512) (fileIn_ne_zero 512))
      (onDriveC (fileIn 512) (fileIn_ne_zero 512)) :=
  mt callsRight_wellSplit (not_wellSplit_fileIn (by decide) (by decide))

end ImpossibleOs.Vfs
