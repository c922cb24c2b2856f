import ImpossibleOs.Ixfs.DirOps

/-!
Runs of operations on one directory.

The directory binds names to inodes. As long as no call meets one of the
exceptions in `Safe`, every call does to the bindings what it says, and both
searches answer from them.
-/

namespace ImpossibleOs.Ixfs

open ByteMem Refine Function List

/-- A C string. -/
structure CName where
  bytes : List UInt8
  noNul : 0 ∉ bytes

def CName.key (name : CName) : List UInt8 := foldName name.bytes

inductive DirOp
  | find (name : CName)
  | create (name : CName) (isDir : Bool) (now : ℕ)
  | unlink (name : CName)
  | rename (oldName newName : CName) (replace : Bool) (now : ℕ)

/-- A node's inode number, or the status of a call. -/
inductive Answer
  | node (ino : Option ℕ)
  | status (r : ℤ)

def DirOp.exec (d : ℕ) (m : Mount) : DirOp → Mount × Answer
  | find name => let r := finddir m d name.bytes; (r.1, .node r.2)
  | create name isDir now => let r := Ixfs.create m d name.bytes isDir now; (r.1, .status r.2)
  | unlink name => let r := Ixfs.unlink m d name.bytes; (r.1, .status r.2)
  | rename oldName newName replace now =>
    let r := Ixfs.rename m d oldName.bytes newName.bytes replace now
    (r.1, .status r.2)

/-! ### Bindings -/

abbrev Bindings := List UInt8 → Option ℕ

/-- What a call may do to the bindings, and what it answers. -/
inductive NameStep (f : Bindings) : DirOp → Answer → Bindings → Prop
  | find (name : CName) : NameStep f (.find name) (.node (f name.key)) f
  | present {name : CName} {isDir : Bool} {now : ℕ} (h : f name.key ≠ none) :
      NameStep f (.create name isDir now) (.status 0) f
  | create {name : CName} {isDir : Bool} {now ino : ℕ} (h : f name.key = none) (hino : ino ≠ 0) :
      NameStep f (.create name isDir now) (.status 0) (update f name.key (some ino))
  | refuse {name : CName} {isDir : Bool} {now : ℕ} :
      NameStep f (.create name isDir now) (.status (-1)) f
  | unlink {name : CName} (h : f name.key ≠ none) :
      NameStep f (.unlink name) (.status 0) (update f name.key none)
  | keep {name : CName} : NameStep f (.unlink name) (.status (-1)) f
  | rename {oldName newName : CName} {now ino : ℕ} (h : f oldName.key = some ino) :
      NameStep f (.rename oldName newName false now) (.status 0)
        (update (update f oldName.key none) newName.key (some ino))
  | stay {oldName newName : CName} {replace : Bool} {now : ℕ}
      (h : replace = true ∨ f oldName.key = none) :
      NameStep f (.rename oldName newName replace now) (.status (-1)) f

def Mount.slots (m : Mount) (v : Vnode) : ℕ → Slot := slotAt m.g.vol.disk v.node

def Mount.bindings (m : Mount) (v : Vnode) : Bindings := names (totalEntries v.node) (m.slots v)

/-- The vnode of slot `d` is that of a directory in good order. -/
structure DirReady (m : Mount) (d : ℕ) (v : Vnode) : Prop where
  slot : m.vnodes[d]? = some v
  dir : Directory m.g v.ino v.node
  unique : Unique (totalEntries v.node) (m.slots v)
  index : ∀ ix, v.dirHash = some ix → Indexes ix (totalEntries v.node) (m.slots v)
  inodes : ∀ k < totalEntries v.node, (m.slots v k).1 ≠ 0 →
    inoInTable m.g.vol.sb (m.slots v k).1 = true
  ended : ∀ k < totalEntries v.node, (m.slots v k).2.length < ixfsMaxName

def Openable (m : Mount) (v : Vnode) (name : List UInt8) : Prop :=
  ∀ ino, m.bindings v (foldName name) = some ino →
    (m.vnodes.any fun v => v.ino = ino) = true ∨ m.vnodes.length < ixfsMaxOpenNodes

/-- No call to which one of the defects of the directory code applies: a lookup whose node
finds the vnode table full, a name longer than its field, an entry number whose offset does not
fit 32 bits, a directory unlinked through itself, a rename onto another entry or under an index
that is not rebuilt. -/
def DirOp.SafeFor (m : Mount) (v : Vnode) : DirOp → Prop
  | find name => Openable m v name.bytes
  | create name _ _ => Openable m v name.bytes ∧ (m.bindings v name.key = none →
      name.bytes.length < ixfsMaxName ∧
        (totalEntries v.node < 2 ^ 24 ∨ ∃ k < totalEntries v.node, (m.slots v k).1 = 0))
  | unlink name => m.bindings v name.key = some v.ino →
      v.node.mode &&& ixfsSDir ≠ 0 ∧ dirEmpty m.g.vol.disk v.node = false
  | rename oldName newName replace _ => replace = false → m.bindings v oldName.key ≠ none →
      (newName.key = oldName.key ∨ m.bindings v newName.key = none) ∧
        newName.bytes.length < ixfsMaxName ∧
        (v.dirHash = none ∨ hashBucket newName.bytes = hashBucket oldName.bytes)

def DirOp.Safe (d : ℕ) (m : Mount) (op : DirOp) : Prop :=
  ∀ v, m.vnodes[d]? = some v → op.SafeFor m v

/-- Every search of the directory answers from the bindings, and no name is bound twice. -/
structure Resolves (m : Mount) (d : ℕ) (v : Vnode) (f : Bindings) : Prop where
  slot : m.vnodes[d]? = some v
  unique : Unique (totalEntries v.node) (m.slots v)
  linear : ∀ name, (linearLookup m.g.vol.disk v.node name).map (fun k => (m.slots v k).1) =
    f (foldName name)
  hash : 0 < totalEntries v.node → ∀ name,
    (hashLookup m.g.vol.disk v.node
      (if v.dirHash.isNone then hashBuild m.g.vol.disk v.node else v.dirHash) name).map
      (fun k => (m.slots v k).1) = f (foldName name)
  finddir : ∀ name, Openable m v name → (finddir m d name).2 = f (foldName name)

variable {m m' : Mount} {d : ℕ} {v v' : Vnode} {g' : Grouped} {name : List UInt8}

/-! ### Searching -/

section

variable (h : DirReady m d v)
include h

theorem DirReady.mapped : Mapped v.node :=
    h.dir.shape.mapped h.dir.owned.consistent

theorem DirReady.linear_map (name : List UInt8) :
    (linearLookup m.g.vol.disk v.node name).map (fun k => (m.slots v k).1) =
      m.bindings v (foldName name) := by
  rw [linearLookup_eq h.mapped]
  rfl

theorem DirReady.used_index (hpos : 0 < totalEntries v.node) :
    ∃ ix, (if v.dirHash.isNone then hashBuild m.g.vol.disk v.node else v.dirHash) = some ix ∧
      Indexes ix (totalEntries v.node) (m.slots v) := by
  cases hdh : v.dirHash with
  | none =>
    obtain ⟨ix, hbuild, hix⟩ := @hashBuild_indexes m.g.vol.disk v.node h.mapped hpos
    exact ⟨ix, hbuild, hix⟩
  | some ix => exact ⟨ix, rfl, h.index ix hdh⟩

theorem DirReady.hash_eq (hpos : 0 < totalEntries v.node) (name : List UInt8) :
    hashLookup m.g.vol.disk v.node
      (if v.dirHash.isNone then hashBuild m.g.vol.disk v.node else v.dirHash) name =
      linearLookup m.g.vol.disk v.node name := by
  obtain ⟨ix, heq, hix⟩ := h.used_index hpos
  rw [heq]
  exact hix.hashLookup_eq h.mapped h.unique

end

theorem getVnode_spec (m : Mount) (ino : ℕ) :
    (getVnode m ino).1.g = m.g ∧
      (∀ (d : ℕ) (v : Vnode), m.vnodes[d]? = some v → (getVnode m ino).1.vnodes[d]? = some v) ∧
      ((getVnode m ino).2 = some ino ∨ (getVnode m ino).2 = none) ∧
      (inoInTable m.g.vol.sb ino = true →
        (m.vnodes.any fun v => v.ino = ino) = true ∨ m.vnodes.length < ixfsMaxOpenNodes →
        (getVnode m ino).2 = some ino) := by
  rw [getVnode]
  split
  · rename_i hlt
    refine ⟨rfl, fun _ _ h => h, .inr rfl, fun hin => ?_⟩
    have := (inoInTable_iff.mp hin).1
    rw [ixfsRootInode] at hlt
    omega
  split
  · exact ⟨rfl, fun _ _ h => h, .inl rfl, fun _ _ => rfl⟩
  · rename_i hany
    split
    · rename_i hfull
      refine ⟨rfl, fun _ _ h => h, .inr rfl, fun _ hopen => ?_⟩
      rcases hopen with hopen | hopen
      · exact absurd hopen hany
      · omega
    split
    · refine ⟨rfl, fun d v h => ?_, .inl rfl, fun _ _ => rfl⟩
      rw [getElem?_append_left (List.getElem?_eq_some_iff.mp h).1]
      exact h
    · rename_i hnot
      exact ⟨rfl, fun _ _ h => h, .inr rfl, fun hin => absurd hin hnot⟩

/-- What a search leaves behind: the directory as it was, perhaps with an index. -/
structure Looked (m : Mount) (d : ℕ) (v : Vnode) (m' : Mount) : Prop where
  g : m'.g = m.g
  vnode : ∃ dh, m'.vnodes[d]? = some { v with dirHash := dh } ∧
    ∀ ix, dh = some ix → Indexes ix (totalEntries v.node) (m.slots v)

theorem Looked.dirOk (h : DirReady m d v) (hl : Looked m d v m') :
    ∃ dh, DirReady m' d { v with dirHash := dh } ∧
      m'.bindings { v with dirHash := dh } = m.bindings v := by
  obtain ⟨dh, hslot, hindex⟩ := hl.vnode
  have hslots : m'.slots { v with dirHash := dh } = m.slots v := by
    rw [Mount.slots, hl.g]
    rfl
  refine ⟨dh, ⟨hslot, ?_, ?_, ?_, ?_, ?_⟩, ?_⟩
  · rw [hl.g]
    exact h.dir
  · rw [hslots]
    exact h.unique
  · rw [hslots]
    exact hindex
  · rw [hslots, hl.g]
    exact h.inodes
  · rw [hslots]
    exact h.ended
  · rw [Mount.bindings, hslots]
    rfl

theorem openEntry_spec {m₁ : Mount} {dh : Option HashIndex.Index} (h : DirReady m d v)
    (hg : m₁.g = m.g) (hslot : m₁.vnodes[d]? = some { v with dirHash := dh })
    (hindex : ∀ ix, dh = some ix → Indexes ix (totalEntries v.node) (m.slots v))
    (hany : ∀ ino, (m₁.vnodes.any fun v => v.ino = ino) = m.vnodes.any fun v => v.ino = ino)
    (hlen : m₁.vnodes.length = m.vnodes.length) (name : List UInt8) :
    Looked m d v (openEntry m₁ v.node (linearLookup m.g.vol.disk v.node name)).1 ∧
      (m.bindings v (foldName name) = none →
        (openEntry m₁ v.node (linearLookup m.g.vol.disk v.node name)).2 = none) ∧
      (Openable m v name → (openEntry m₁ v.node (linearLookup m.g.vol.disk v.node name)).2 =
        m.bindings v (foldName name)) := by
  rw [← h.linear_map]
  cases hfind : linearLookup m.g.vol.disk v.node name with
  | none => exact ⟨⟨hg, dh, hslot, hindex⟩, fun _ => rfl, fun _ => rfl⟩
  | some k =>
    have hmap := h.linear_map name
    rw [hfind, Option.map_some] at hmap
    rw [linearLookup_eq h.mapped] at hfind
    have hk := mem_range.mp (mem_of_find?_eq_some hfind)
    have hb : (m.slots v k).binds (foldName name) := by
      simpa [Mount.slots] using find?_some hfind
    obtain ⟨hg', hkeep, -, hopen⟩ := getVnode_spec m₁ (m.slots v k).1
    have heq : openEntry m₁ v.node (some k) = getVnode m₁ (m.slots v k).1 := by
      rw [openEntry, if_neg (h.mapped k hk), hg]
      rfl
    rw [heq]
    refine ⟨⟨hg'.trans hg, dh, hkeep d _ hslot, hindex⟩, nofun, ?_⟩
    intro hopenable
    rw [Option.map_some]
    apply hopen
    · rw [hg]
      exact h.inodes k hk hb.1
    · rw [hany, hlen]
      exact hopenable _ hmap.symm

theorem any_set {l : List Vnode} {dh : Option HashIndex.Index} (h : l[d]? = some v) (ino : ℕ) :
    ((l.set d { v with dirHash := dh }).any fun v => v.ino = ino) =
      l.any fun v => v.ino = ino := by
  obtain ⟨hlt, rfl⟩ := List.getElem?_eq_some_iff.mp h
  have hmap : (l.set d { l[d] with dirHash := dh }).map Vnode.ino = l.map Vnode.ino := by
    apply ext_getElem (by simp)
    intro j hj _
    simp only [getElem_map, getElem_set]
    split
    · rename_i heq
      subst heq
      rfl
    · rfl
  have hany : ∀ l : List Vnode, (l.any fun v => v.ino = ino) = (l.map Vnode.ino).any (· = ino) :=
    fun l => by rw [any_map]; rfl
  rw [hany, hany, hmap]

theorem finddir_spec (h : DirReady m d v) (name : List UInt8) : Looked m d v (finddir m d name).1 ∧
      (m.bindings v (foldName name) = none → (finddir m d name).2 = none) ∧
      (Openable m v name → (finddir m d name).2 = m.bindings v (foldName name)) := by
  have hslot := h.slot
  simp only [finddir, h.slot]
  split
  · rename_i hlarge
    have hpos : 0 < totalEntries v.node := by omega
    rw [h.hash_eq hpos]
    obtain ⟨ix, heq, hix⟩ := h.used_index hpos
    rw [heq]
    apply openEntry_spec h
    · rfl
    · exact getElem?_set_self (List.getElem?_eq_some_iff.mp h.slot).1
    · rintro ix' hix'
      cases hix'
      exact hix
    · exact any_set h.slot
    · exact length_set
  · exact openEntry_spec h rfl hslot h.index (fun _ => rfl) rfl name

/-! ### Changing -/

theorem DirReady.keeps (h : DirReady m d v) (hk : Keeps m.g g' v.ino v.node) :
    DirReady { m with g := g' } d v ∧ Mount.bindings { m with g := g' } v = m.bindings v := by
  have hsame : ∀ k < totalEntries v.node, Mount.slots { m with g := g' } v k = m.slots v k :=
    fun k hlt => hk.slot_eq (h.dir.shape.hasPlace hlt)
  refine ⟨⟨h.slot, hk.dir, h.unique.congr hsame, ?_, ?_, ?_⟩, names_congr hsame⟩
  · intro ix hix
    apply (h.index ix hix).congr
    intro k hlt
    rw [hsame k hlt]
    exact ⟨Iff.rfl, rfl⟩
  · intro k hlt hlive
    rw [hsame k hlt] at hlive ⊢
    rw [inoInTable_congr hk.layout]
    exact h.inodes k hlt hlive
  · intro k hlt
    rw [hsame k hlt]
    exact h.ended k hlt

theorem DirReady.of_change {k : ℕ} (h : DirReady m d v) (hslot : m'.vnodes[d]? = some v')
    (hdir : Directory m'.g v'.ino v'.node) (hl : SameLayout m.g.vol.sb m'.g.vol.sb)
    (hc : Change (totalEntries v.node) k (totalEntries v'.node) (m.slots v) (m'.slots v'))
    (hu : Unique (totalEntries v'.node) (m'.slots v'))
    (hindex : ∀ ix, v'.dirHash = some ix → Indexes ix (totalEntries v'.node) (m'.slots v'))
    (hin : (m'.slots v' k).1 ≠ 0 → inoInTable m.g.vol.sb (m'.slots v' k).1 = true)
    (hend : (m'.slots v' k).2.length < ixfsMaxName) : DirReady m' d v' := by
  have hsize := hc.size
  refine ⟨hslot, hdir, hu, hindex, ?_, ?_⟩
  · intro j hj hlive
    rw [inoInTable_congr hl]
    rcases eq_or_ne j k with rfl | hjk
    · exact hin hlive
    · rw [hc.others j (by omega) hjk] at hlive ⊢
      exact h.inodes j (by omega) hlive
  · intro j hj
    rcases eq_or_ne j k with rfl | hjk
    · exact hend
    · rw [hc.others j (by omega) hjk]
      exact h.ended j (by omega)

/-- The bindings after a call. -/
def Bound (d : ℕ) (m : Mount) (f : Bindings) : Prop := ∃ v, DirReady m d v ∧ m.bindings v = f

section

variable (h : DirReady m d v)
include h

theorem DirReady.bound : Bound d m (m.bindings v) := ⟨v, h, rfl⟩

theorem DirReady.bound_keeps (hk : Keeps m.g g' v.ino v.node) :
    Bound d { m with g := g' } (m.bindings v) :=
  ⟨v, h.keeps hk⟩

omit h in
theorem Adds.bound {inode : ByteMem} {new : ℕ} {name : CName} (h : DirReady m d v)
    (ha : Adds m.g g' v.ino v.node (decodeInode inode 0) new name.bytes)
    (hin : inoInTable m.g.vol.sb new = true) (hnew : m.bindings v name.key = none)
    (hlen : name.bytes.length < ixfsMaxName) :
    Bound d ⟨g'.setVol (flushDir g'.vol v.ino inode), m.vnodes.set d ⟨v.ino, inode, none⟩⟩
      (update (m.bindings v) name.key (some new)) := by
  obtain ⟨k, hchange, hslot, hfree⟩ := ha.change
  have hflush := ha.dir.owned.keeps_flush ha.dir.inTable ha.list ha.shape
  generalize g'.setVol (flushDir g'.vol v.ino inode) = g'' at *
  have hsame : ∀ j < totalEntries (decodeInode inode 0),
      slotAt g''.vol.disk (decodeInode inode 0) j = slotAt g'.vol.disk (decodeInode inode 0) j :=
    fun j hj => hflush.slot_eq (ha.shape.hasPlace hj)
  have hchange' := hchange.congr hsame
  have hslot' : Mount.slots ⟨g'', m.vnodes.set d ⟨v.ino, inode, none⟩⟩ ⟨v.ino, inode, none⟩ k =
      (new, name.bytes) := (hsame k hchange.lt).trans hslot
  have hne : new ≠ 0 := by
    have := (inoInTable_iff.mp hin).1
    omega
  obtain ⟨hu, hnames⟩ := hchange'.add h.unique hslot' hne hfree hnew
  refine ⟨⟨v.ino, inode, none⟩, h.of_change ?_ hflush.dir (ha.layout.trans hflush.layout) hchange'
    hu nofun ?_ ?_, hnames⟩
  · exact getElem?_set_self (List.getElem?_eq_some_iff.mp h.slot).1
  · intro _
    rw [hslot']
    exact hin
  · rw [hslot']
    exact hlen

theorem create_step {name : CName} {isDir : Bool} {now : ℕ}
    (hsafe : (DirOp.create name isDir now).SafeFor m v) :
    ∃ f', NameStep (m.bindings v) (.create name isDir now)
        ((DirOp.create name isDir now).exec d m).2 f' ∧
      Bound d ((DirOp.create name isDir now).exec d m).1 f' := by
  obtain ⟨hopenable, hnew⟩ := hsafe
  obtain ⟨hlook, hnone, hopen⟩ := finddir_spec h name.bytes
  obtain ⟨dh, hok, hbind⟩ := hlook.dirOk h
  have hslots : (finddir m d name.bytes).1.slots { v with dirHash := dh } = m.slots v := by
    rw [Mount.slots, hlook.g]
    rfl
  have hopen := hopen hopenable
  simp only [DirOp.exec, create]
  split
  · exact ⟨_, .refuse, h.bound⟩
  generalize finddir m d name.bytes = r at *
  simp only [hok.slot]
  rw [← hbind] at hnew hnone hopen ⊢
  split
  · rename_i hsome
    refine ⟨_, .present ?_, hok.bound⟩
    intro h0
    rw [hnone h0] at hsome
    cases hsome
  · rename_i hsome
    have hunbound : r.1.bindings { v with dirHash := dh } name.key = none := by
      rw [Option.not_isSome_iff_eq_none] at hsome
      exact hopen.symm.trans hsome
    obtain ⟨hlen, hroom⟩ := hnew hunbound
    rw [← hslots] at hroom
    split
    · exact ⟨_, .refuse, hok.bound⟩
    · rename_i new hfree
      obtain ⟨hin, hmode⟩ := findFreeInode_spec hfree
      have hne : new ≠ v.ino := by
        rintro rfl
        rw [hok.dir.stored] at hmode
        exact hok.dir.shape.mode hmode
      have hkeeps := makeInode_keeps hok.dir hin hne v.ino now isDir
      cases hmake : makeInode r.1.g new v.ino isDir now with
      | mk g₁ made =>
        rw [hmake] at hkeeps
        dsimp only [Vnode.node] at hkeeps
        cases made with
        | false => exact ⟨_, .refuse, hok.bound_keeps hkeeps⟩
        | true =>
          obtain ⟨hok₁, hbind₁⟩ := hok.keeps hkeeps
          have hin₁ : inoInTable g₁.vol.sb new = true := by
            rw [inoInTable_congr hkeeps.layout]
            exact hin
          have hlt : new < 2 ^ 32 :=
            (inoInTable_iff.mp hin).2.1.trans_le (readLE_lt _ _ _).le
          have hroom₁ : totalEntries v.node < 2 ^ 24 ∨
              ∃ k < totalEntries v.node, (slotAt g₁.vol.disk v.node k).1 = 0 := by
            rcases hroom with hroom | ⟨k, hk, h0⟩
            · exact .inl hroom
            · refine .inr ⟨k, hk, ?_⟩
              exact (congrArg Prod.fst (hkeeps.slot_eq (hok.dir.shape.hasPlace hk))).trans h0
          rcases addDirent_spec hok₁.dir hroom₁ hlt name.noNul hlen with
            ⟨g₂, heq, hk₂⟩ | ⟨g₂, inode', heq, hadds⟩
          · simp only [heq]
            exact ⟨_, .refuse, hok.bound_keeps (hkeeps.trans hk₂)⟩
          · simp only [heq]
            rw [← hbind₁] at hunbound ⊢
            refine ⟨_, .create hunbound ?_, hadds.bound hok₁ hin₁ hunbound hlen⟩
            have := (inoInTable_iff.mp hin).1
            omega

omit h in
theorem getElem?_retire {l : List Vnode} {target : ℕ} (h : l[d]? = some v) (hne : target ≠ v.ino) :
    (retire l target)[d]? = some v := by
  rw [retire]
  split
  · exact h
  · rename_i j hj
    obtain ⟨hlt, hino, -⟩ := List.findIdx?_eq_some_iff_getElem.mp hj
    rw [decide_eq_true_iff] at hino
    have hjd : j ≠ d := by
      rintro rfl
      obtain ⟨_, rfl⟩ := List.getElem?_eq_some_iff.mp h
      exact hne hino.symm
    simp [h, hjd]

theorem DirReady.found {k : ℕ} (hfind : linearLookup m.g.vol.disk v.node name = some k) :
    k < totalEntries v.node ∧ (m.slots v k).binds (foldName name) ∧
      m.bindings v (foldName name) = some (m.slots v k).1 := by
  have hmap := h.linear_map name
  rw [hfind, Option.map_some] at hmap
  rw [linearLookup_eq h.mapped] at hfind
  refine ⟨mem_range.mp (mem_of_find?_eq_some hfind), ?_, hmap.symm⟩
  simpa [Mount.slots] using find?_some hfind

theorem DirReady.not_found (hfind : linearLookup m.g.vol.disk v.node name = none) :
    m.bindings v (foldName name) = none := by
  rw [← h.linear_map, hfind, Option.map_none]

theorem unlink_step {name : CName} (hsafe : (DirOp.unlink name).SafeFor m v) :
    ∃ f', NameStep (m.bindings v) (.unlink name) ((DirOp.unlink name).exec d m).2 f' ∧
      Bound d ((DirOp.unlink name).exec d m).1 f' := by
  simp only [DirOp.exec, unlink, h.slot]
  cases hfind : linearLookup m.g.vol.disk v.node name.bytes with
  | none => exact ⟨_, .keep, h.bound⟩
  | some k =>
    obtain ⟨hk, hb, hbound⟩ := h.found hfind
    have hin := h.inodes k hk hb.1
    have htarget : direntInode m.g.vol.disk (direntAddr v.node k) = (m.slots v k).1 := rfl
    dsimp only
    rw [htarget]
    generalize (m.slots v k).1 = target at *
    rw [hin, Bool.not_true, if_neg Bool.false_ne_true]
    split
    · exact ⟨_, .keep, h.bound⟩
    · rename_i hempty
      have hne : target ≠ v.ino := by
        rintro rfl
        obtain ⟨hmode, hnot⟩ := hsafe hbound
        rw [h.dir.stored, hnot] at hempty
        exact hempty (by simpa using hmode)
      have hrelease := h.dir.keeps_release hin hne
      have hkeeps := hrelease.trans hrelease.dir.keeps_giveInode
      rw [getElem?_retire h.slot hne]
      generalize ((freeAllExtents m.g (m.g.vol.inode target)).setVol
        (putInode (freeAllExtents m.g (m.g.vol.inode target)).vol target zeroBuf)).giveInode = g₂
        at *
      dsimp only
      have hout : ∀ x < 4096, x < entryOffset k ∨ entryOffset k + 256 ≤ x →
          writeLE (writeLE (readBuf m.g.vol.disk (entryBlock v.node k)) (entryOffset k) 4 0)
            (entryOffset k + 4) 1 0 x = readBuf g₂.vol.disk (entryBlock v.node k) x := by
        intro x hx hout
        rw [writeLE_of_lt (by omega), writeLE_of_lt (by omega)]
        refine ((hkeeps.blocks _ ?_).readBuf_eq hx).symm
        exact h.dir.shape.entryBlock_mem h.dir.owned.consistent (h.dir.shape.hasPlace hk)
      have hwrite := hkeeps.rewrites (hkeeps.dir.rewrites hk hout)
      rw [readDirent_cleared] at hwrite
      generalize g₂.writeEntry (entryBlock v.node k) (writeLE (writeLE
        (readBuf m.g.vol.disk (entryBlock v.node k)) (entryOffset k) 4 0)
        (entryOffset k + 4) 1 0) = g₃ at *
      have hflush := hwrite.keeps
        (hwrite.dir.owned.keeps_flush hwrite.dir.inTable hwrite.dir.mayList hwrite.dir.shape)
      generalize g₃.setVol (flushDir g₃.vol v.ino v.inode) = g₄ at *
      have hslot : slotAt g₄.vol.disk v.node k = (0, []) := hflush.slot
      obtain ⟨hu, hnames⟩ := hflush.change.remove h.unique (by rw [hslot]) hb
      refine ⟨_, .unlink (by simp [CName.key, hbound]), { v with dirHash := none },
        h.of_change ?_ hflush.dir hflush.layout hflush.change hu nofun ?_ ?_, hnames⟩
      · apply getElem?_set_self
        exact (List.getElem?_eq_some_iff.mp (getElem?_retire h.slot hne)).1
      · intro hlive
        exact absurd (congrArg Prod.fst hslot) hlive
      · exact (congrArg (fun s : Slot => s.2.length) hslot).trans_lt (by decide)

omit h in
theorem Rewrites.bound {k : ℕ} {inode : ByteMem} {old new : CName} (h : DirReady m d v)
    (hr : Rewrites m.g g' v.ino v.node k ((m.slots v k).1, new.bytes))
    (hnode : decodeInode inode 0 = v.node) (hb : (m.slots v k).binds old.key)
    (hfree : new.key = old.key ∨ m.bindings v new.key = none)
    (hlen : new.bytes.length < ixfsMaxName)
    (hindex : v.dirHash = none ∨ hashBucket new.bytes = hashBucket old.bytes) :
    Bound d ⟨g', m.vnodes.set d { v with inode := inode }⟩
      (update (update (m.bindings v) old.key none) new.key
        (some (m.slots v k).1)) := by
  obtain ⟨hu, hnames⟩ := hr.change.move h.unique hr.slot hb hfree
  have hnode' : Vnode.node { v with inode := inode } = v.node := hnode
  have hslots : Mount.slots ⟨g', m.vnodes.set d { v with inode := inode }⟩
      { v with inode := inode } = slotAt g'.vol.disk v.node := by
    rw [Mount.slots, hnode']
  refine ⟨{ v with inode := inode }, h.of_change (k := k) ?_ ?_ hr.layout ?_ ?_ ?_ ?_ ?_, ?_⟩
  · exact getElem?_set_self (List.getElem?_eq_some_iff.mp h.slot).1
  · rw [hnode']
    exact hr.dir
  · rw [hnode', hslots]
    exact hr.change
  · rw [hnode', hslots]
    exact hu
  · intro ix hix
    rw [hnode', hslots]
    apply (h.index ix hix).congr
    intro j hj
    rcases eq_or_ne j k with rfl | hjk
    · -- the index has the entry in the bucket of its old name
      have hbucket : hashBucket new.bytes = hashBucket old.bytes := by
        rcases hindex with hnone | heq
        · rw [hnone] at hix
          cases hix
        · exact heq
      rw [hr.slot]
      exact ⟨Iff.rfl, hbucket.trans (hashBucket_congr hb.2).symm⟩
    · rw [hr.change.others j hj hjk]
      exact ⟨Iff.rfl, rfl⟩
  · rw [hslots, hr.slot]
    exact h.inodes k hr.change.lt
  · rw [hslots, hr.slot]
    exact hlen
  · rw [Mount.bindings, hslots, hnode']
    exact hnames

omit h in
theorem rename_eq {k now : ℕ} {old new : List UInt8} (h : m.vnodes[d]? = some v)
    (hfind : linearLookup m.g.vol.disk v.node old = some k) :
    rename m d old new false now =
      let g := m.g.writeEntry (entryBlock v.node k)
        (putName (readBuf m.g.vol.disk (entryBlock v.node k)) (entryOffset k + 4) new)
      (⟨g.setVol (putInode g.vol v.ino (writeLE v.inode 24 4 now)),
        m.vnodes.set d { v with inode := writeLE v.inode 24 4 now }⟩, 0) := by
  rw [rename]
  simp only [h, hfind, Bool.false_eq_true, if_false]
  rfl

theorem rename_step {oldName newName : CName} {replace : Bool} {now : ℕ}
    (hsafe : (DirOp.rename oldName newName replace now).SafeFor m v) :
    ∃ f', NameStep (m.bindings v) (.rename oldName newName replace now)
        ((DirOp.rename oldName newName replace now).exec d m).2 f' ∧
      Bound d ((DirOp.rename oldName newName replace now).exec d m).1 f' := by
  simp only [DirOp.exec]
  cases replace with
  | true =>
    simp only [rename, h.slot]
    exact ⟨_, .stay (.inl rfl), h.bound⟩
  | false =>
    cases hfind : linearLookup m.g.vol.disk v.node oldName.bytes with
    | none =>
      simp only [rename, h.slot, hfind]
      exact ⟨_, .stay (.inr (h.not_found hfind)), h.bound⟩
    | some k =>
      rw [rename_eq h.slot hfind]
      obtain ⟨hk, hb, hbound⟩ := h.found hfind
      obtain ⟨hfree, hlen, hindex⟩ := hsafe rfl (by simp [CName.key, hbound])
      have hwrite := h.dir.rewrites hk fun x _ hx =>
        sameOutside_putName (readBuf m.g.vol.disk (entryBlock v.node k)) (entryOffset k)
          newName.bytes x hx
      rw [readDirent_putName newName.noNul hlen, direntInode, readLE_readBuf] at hwrite
      have hstamp := decodeInode_stamp v.inode now
      have hown := hwrite.keeps (hwrite.dir.keeps_own hstamp)
      exact ⟨_, .rename hbound, Rewrites.bound h hown hstamp hb hfree hlen hindex⟩

theorem find_step {name : CName} (hsafe : (DirOp.find name).SafeFor m v) :
    ∃ f', NameStep (m.bindings v) (.find name) ((DirOp.find name).exec d m).2 f' ∧
      Bound d ((DirOp.find name).exec d m).1 f' := by
  obtain ⟨hlook, -, hopen⟩ := finddir_spec h name.bytes
  obtain ⟨dh, hok, hbind⟩ := hlook.dirOk h
  simp only [DirOp.exec]
  rw [hopen hsafe]
  exact ⟨_, .find name, _, hok, hbind⟩

theorem DirOp.step {op : DirOp} (hsafe : op.SafeFor m v) :
    ∃ f', NameStep (m.bindings v) op (op.exec d m).2 f' ∧ Bound d (op.exec d m).1 f' := by
  cases op with
  | find name => exact find_step h hsafe
  | create name isDir now => exact create_step h hsafe
  | unlink name => exact unlink_step h hsafe
  | rename oldName newName replace now => exact rename_step h hsafe

theorem DirReady.resolves : Resolves m d v (m.bindings v) where
  slot := h.slot
  unique := h.unique
  linear := h.linear_map
  hash hpos name := by
    rw [h.hash_eq hpos]
    exact h.linear_map name
  finddir name := (finddir_spec h name).2.2

end

/-- In a run of calls none of which meets an exception, every call does to the bindings what it
says, and in the end every search answers from them. -/
theorem directory_run (h : DirReady m d v) {ops : List DirOp}
    (hsafe : Meets (fun m op => (DirOp.exec d m op).1) (DirOp.Safe d) m ops) :
    ∃ f, Runs NameStep (m.bindings v) (answered (DirOp.exec d) m ops) f ∧
      ∃ v', Resolves (ops.foldl (fun m op => (DirOp.exec d m op).1) m) d v' f := by
  obtain ⟨f, hruns, v', hok, rfl⟩ := Meets.simulates (Bound d)
    (fun m f op hbound hsafe => by
      obtain ⟨v, hok, rfl⟩ := hbound
      exact DirOp.step hok (hsafe v hok.slot)) hsafe h.bound
  exact ⟨_, hruns, v', hok.resolves⟩

/-! ### Two files in a directory -/

/-- A root directory of 65 entries in blocks 4 to 8. -/
def twoFilesRoot : ByteMem :=
  writeLE (writeLE (writeLE (newInode true 0 4) (extentAddr 0 + 8) 4 5) 16 4 5) 8 8 16640

/-- Inode 1 is the root, inodes 2 and 3 are files. -/
def twoFilesTable : ByteMem := fun x =>
  if x / 128 = 1 then twoFilesRoot (x % 128)
  else if x / 128 = 2 ∨ x / 128 = 3 then newInode false 0 0 (x % 128) else 0

/-- Sixteen blocks: bitmap in block 1, inode table in block 2, data from block 4 on. The
directory holds inode 2 under the name a in its first entry, and inode 3 under the name b in its
last one. It has enough entries for a hash index. -/
def twoFiles : Volume where
  sb := writeLE (writeLE (writeLE (writeLE (writeLE (writeLE (writeLE (writeLE zeroBuf 12 8 16)
    20 8 7) 28 4 32) 36 4 1) 40 4 1) 44 4 2) 48 4 1) 52 4 4
  disk := writeBuf (writeBuf (writeBuf zeroBuf 2 twoFilesTable) 4 (putDirent zeroBuf 0 2 [0x61])) 8
    (putDirent zeroBuf 0 3 [0x62])
  bitmap := fun x => if x = 0 then 0xFF else if x = 1 then 1 else 0
  bitmapBytes := 2
  refcounts := none
  checksums := none
  snapshots := []
  readOnly := false
  active := true
  deviceBlocks := 16

def rootVnode : Vnode := ⟨1, inodeBytes twoFiles 1, none⟩

def twoFilesMount : Mount := ⟨initGroups twoFiles, [rootVnode]⟩

def nameA : CName := ⟨[0x61], by decide⟩
def nameB : CName := ⟨[0x62], by decide⟩
def nameC : CName := ⟨[0x63], by decide⟩

theorem twoFiles_blocks : ∀ ino < 32,
    inodeBlocks (twoFiles.inode ino) = if ino = 1 then [4, 5, 6, 7, 8] else [] := by
  decide

theorem twoFiles_owned : Owned (initGroups twoFiles) := by
  have hblocks : ∀ ino, inoInTable twoFiles.sb ino = true →
      inodeBlocks (twoFiles.inode ino) = if ino = 1 then [4, 5, 6, 7, 8] else [] := by
    intro ino hin
    have hlt : ino < 32 := (inoInTable_iff.mp hin).2.1
    exact twoFiles_blocks ino hlt
  refine ⟨?_, ?_, ?_, ?_⟩
  · apply initGroups_consistent
    · decide
    · decide
    · decide
    · decide
    · decide
  · constructor
    · decide
    · decide
    · decide
    · decide
  · intro ino hin b hb _
    rw [show (initGroups twoFiles).vol = twoFiles from rfl, hblocks ino hin] at hb
    split at hb
    · have hset : ∀ b ∈ [4, 5, 6, 7, 8], Bitmap.test twoFiles.bitmap b = true := by decide
      exact hset b hb
    · cases hb
  · intro i j hi hj hij b hb _
    rw [show (initGroups twoFiles).vol = twoFiles from rfl, hblocks _ ‹_›] at hb ⊢
    split at hb
    · rename_i h1
      rw [if_neg (by omega)]
      exact not_mem_nil
    · cases hb

theorem rootVnode_blocks : inodeBlocks rootVnode.node = [4, 5, 6, 7, 8] := by decide

theorem twoFiles_directory : Directory (initGroups twoFiles) 1 rootVnode.node := by
  refine ⟨twoFiles_owned, by decide, by decide +kernel, ?_⟩
  refine ⟨by decide, by decide, ?_, ?_, ?_, by decide⟩
  · rw [rootVnode_blocks]
    decide
  · rw [rootVnode_blocks]
    intro b hb
    have hrange : ∀ b ∈ [4, 5, 6, 7, 8], twoFiles.sb.dataStart ≤ b ∧
        b < twoFiles.sb.totalBlocks := by
      decide
    exact ⟨(hrange b hb).1, (hrange b hb).2⟩
  · rw [rootVnode_blocks]
    decide

theorem rootVnode_entries : totalEntries rootVnode.node = 65 := by decide

theorem twoFiles_slots : ∀ k < 65, twoFilesMount.slots rootVnode k =
    if k = 0 then (2, [0x61]) else if k = 64 then (3, [0x62]) else (0, []) := by
  decide +kernel

theorem twoFiles_ok : DirReady twoFilesMount 0 rootVnode := by
  have hslot := twoFiles_slots
  refine ⟨rfl, twoFiles_directory, ?_, nofun, ?_, ?_⟩ <;> rw [rootVnode_entries]
  · intro j k key hj hk hbj hbk
    have hlive : ∀ k < 65, (twoFilesMount.slots rootVnode k).1 ≠ 0 → k = 0 ∨ k = 64 := by
      intro k hk hne
      by_contra hno
      rw [hslot k hk, if_neg (by omega), if_neg (by omega)] at hne
      exact hne rfl
    have hne : foldName (twoFilesMount.slots rootVnode 0).2 ≠
        foldName (twoFilesMount.slots rootVnode 64).2 := by
      rw [hslot 0 (by decide), hslot 64 (by decide)]
      decide
    have hkey := hbj.2.trans hbk.2.symm
    rcases hlive j hj hbj.1 with rfl | rfl <;> rcases hlive k hk hbk.1 with rfl | rfl
    · rfl
    · exact absurd hkey hne
    · exact absurd hkey.symm hne
    · rfl
  · intro k hk hne
    rw [hslot k hk] at hne ⊢
    split_ifs at hne ⊢
    · decide
    · decide
    · exact absurd rfl hne
  · intro k hk
    rw [hslot k hk]
    split_ifs <;> decide

/-- The search builds the hash index, and the deletion drops it. -/
def indexedOps : List DirOp := [.find nameA, .unlink nameB]

theorem directory_run_twoFiles :
    ((DirOp.exec 0 twoFilesMount (.find nameA)).1.vnodes[0]?.any fun v => v.dirHash.isSome) = true ∧
      ∃ f, Runs NameStep (twoFilesMount.bindings rootVnode)
          (answered (DirOp.exec 0) twoFilesMount indexedOps) f ∧
        ∃ v', Resolves (indexedOps.foldl (fun m op => (DirOp.exec 0 m op).1) twoFilesMount) 0 v'
          f := by
  refine ⟨by decide +kernel, @directory_run _ _ _ twoFiles_ok indexedOps ⟨?_, ?_, trivial⟩⟩
  · rintro v hv ino -
    exact .inr (by decide)
  · rintro v hv hself
    obtain ⟨dh, hready, hbind⟩ := (finddir_spec twoFiles_ok nameA.bytes).1.dirOk twoFiles_ok
    obtain rfl := Option.some.inj (hready.slot.symm.trans hv)
    have hb : twoFilesMount.bindings rootVnode nameB.key = some 3 := by decide +kernel
    rw [← hbind] at hb
    cases hb.symm.trans hself

/-- The directory after `a` has been renamed to `b`. -/
def renamedVnode : Vnode := { rootVnode with inode := writeLE rootVnode.inode 24 4 7 }

theorem rename_onto_entry : DirReady twoFilesMount 0 rootVnode ∧
    (rename twoFilesMount 0 nameA.bytes nameB.bytes false 7).2 = 0 ∧
    (rename twoFilesMount 0 nameA.bytes nameB.bytes false 7).1.vnodes[0]? = some renamedVnode ∧
    ¬ Unique (totalEntries renamedVnode.node)
      ((rename twoFilesMount 0 nameA.bytes nameB.bytes false 7).1.slots renamedVnode) := by
  have hslot : twoFilesMount.vnodes[0]? = some rootVnode := rfl
  have hfind : linearLookup twoFilesMount.g.vol.disk rootVnode.node nameA.bytes = some 0 := by
    decide
  refine ⟨twoFiles_ok, ?_, ?_, ?_⟩
  · simp only [rename, hslot, hfind]
    rfl
  · simp only [rename, hslot, hfind]
    rfl
  · intro hu
    have hboth : ∀ k ∈ [0, 64], ((rename twoFilesMount 0 nameA.bytes nameB.bytes false 7).1.slots
        renamedVnode k).binds nameB.key := by
      decide +kernel
    have := hu 0 64 nameB.key (by decide) (by decide) (hboth 0 (by simp)) (hboth 64 (by simp))
    omega

end ImpossibleOs.Ixfs
