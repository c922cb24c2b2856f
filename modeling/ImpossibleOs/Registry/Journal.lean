import ImpossibleOs.Lib.Refine
import ImpossibleOs.Registry.Hive

/-!
The journal of a hive: crashes and recovery.

A save writes the journal, copies the hive to the backup and renames the journal
to the hive; when the rename fails it writes the hive itself and takes the
journal away. A recovery completes the hive from the first valid file of the three.

A crash stops a list of file operations between two of them, or after some of
the bytes of a write or a copy. Renaming is atomic, and creating a file that is
there leaves it alone.
-/

namespace ImpossibleOs.Registry

open LeBytes Function

inductive HivePath
  | log
  | hive
  | bak
  deriving DecidableEq, Repr

/-- The files of one hive; `none` for a file that is not there. -/
abbrev Files := HivePath → Option (List UInt8)

/-! ### File operations -/

inductive FileStep
  | create (path : HivePath)
  | write (path : HivePath) (data : List UInt8)
  | copy (src dst : HivePath)
  | rename (src dst : HivePath)
  | unlink (path : HivePath)
  deriving DecidableEq, Repr

namespace Files

def create (fs : Files) (path : HivePath) : Files :=
  update fs path (some ((fs path).getD []))

/-- All writes of the journal code start at the front of the file. -/
def write (fs : Files) (path : HivePath) (data : List UInt8) : Files :=
  update fs path ((fs path).map fun old => ByteFile.splice old 0 data)

/-- The first `n` bytes of `src` are put over `dst`, which is created if it is not there
(`hive_copy_file`, whose pieces are written where they were read). -/
def copy (fs : Files) (src dst : HivePath) (n : ℕ) : Files :=
  match fs src with
  | none => fs
  | some data => (fs.create dst).write dst (data.take n)

def rename (fs : Files) (src dst : HivePath) : Files :=
  match fs src with
  | none => fs
  | some data => update (update fs dst (some data)) src none

/-- One operation to its end. -/
def exec (fs : Files) : FileStep → Files
  | .create path => fs.create path
  | .write path data => fs.write path data
  | .copy src dst => fs.copy src dst ((fs src).getD []).length
  | .rename src dst => fs.rename src dst
  | .unlink path => update fs path none

/-- An operation that a crash stops after `n` of its bytes. -/
def torn (fs : Files) (n : ℕ) : FileStep → Files
  | .write path data => fs.write path (data.take n)
  | .copy src dst => fs.copy src dst n
  | _ => fs

/-- A crash after `done` operations and `n` bytes of the next one. -/
def crash (n : ℕ) : Files → List FileStep → ℕ → Files
  | fs, [], _ => fs
  | fs, step :: _, 0 => fs.torn n step
  | fs, step :: steps, done + 1 => crash n (fs.exec step) steps done

variable (fs : Files)

theorem write_self {path : HivePath} {old : List UInt8} (h : fs path = some old)
    (data : List UInt8) : fs.write path data path = some (data ++ old.drop data.length) := by
  rw [write, update_self, h, Option.map_some, ByteFile.splice_zero]

theorem write_other {path x : HivePath} (h : x ≠ path) (data : List UInt8) :
    fs.write path data x = fs x :=
  update_of_ne h ..

theorem create_self (path : HivePath) : fs.create path path = some ((fs path).getD []) :=
  update_self ..

theorem create_other {path x : HivePath} (h : x ≠ path) : fs.create path x = fs x :=
  update_of_ne h ..

theorem copy_other {src dst x : HivePath} (h : x ≠ dst) (n : ℕ) : fs.copy src dst n x = fs x := by
  unfold copy
  cases fs src with
  | none => rfl
  | some data => exact (write_other _ h _).trans (create_other _ h)

theorem copy_self {src dst : HivePath} {data : List UInt8} (h : fs src = some data) (n : ℕ) :
    fs.copy src dst n dst = some (data.take n ++ ((fs dst).getD []).drop (data.take n).length) := by
  unfold copy
  rw [h]
  dsimp only
  rw [write_self _ (create_self fs dst)]

theorem rename_self {src dst : HivePath} {data : List UInt8} (h : fs src = some data)
    (hne : dst ≠ src) : fs.rename src dst dst = some data := by
  rw [rename, h]
  exact (update_of_ne hne ..).trans (update_self ..)

theorem crash_length (n : ℕ) (steps : List FileStep) :
    crash n fs steps steps.length = steps.foldl exec fs := by
  induction steps generalizing fs with
  | nil => rfl
  | cons step steps ih => exact ih (fs.exec step)

end Files

/-! ### Saving and recovering -/

def hiveInvalidateLog : FileStep := .write .log (le 4 0)

/-- What a save does when its write of the journal takes the bytes `log`, and that of the hive, for
a rename that failed, the bytes `hive`. -/
def hiveSaveSteps (log hive : List UInt8) (renamed : Bool) : List FileStep :=
  [FileStep.create .log, .write .log log, .copy .hive .bak] ++
    if renamed then [FileStep.rename .log .hive]
    else [FileStep.create .hive, .write .hive hive, hiveInvalidateLog, .unlink .log]

/-- How the writes of a save end: the number of bytes each takes, `none` where the file does not
open or the count is negative. -/
structure SaveIo where
  logWritten : Option ℕ
  renamed : Bool
  hiveWritten : Option ℕ

/-- `hive_save` from its first file operation on: `none` when it returns -1. A short count is not
looked at. -/
def hiveSaveFiles (io : SaveIo) (fs : Files) (bytes : List UInt8) : Option Files :=
  io.logWritten.bind fun log =>
    (if io.renamed then some 0 else io.hiveWritten).map fun hive =>
      (hiveSaveSteps (bytes.take log) (bytes.take hive) io.renamed).foldl Files.exec fs

/-- The file whose write fills the hive. -/
def SaveIo.target (io : SaveIo) : HivePath := if io.renamed then .log else .hive

def SaveIo.filled (io : SaveIo) : ℕ :=
  (if io.renamed then io.logWritten else io.hiveWritten).getD 0

/-- The hive after a save: what the write that fills it took, over what its file held before. -/
theorem hiveSaveFiles_hive {io : SaveIo} {fs fs' : Files} {bytes : List UInt8}
    (h : hiveSaveFiles io fs bytes = some fs') : fs' .hive =
      some (ByteFile.splice ((fs io.target).getD []) 0 (bytes.take io.filled)) := by
  obtain ⟨log, hlog, h⟩ := Option.bind_eq_some_iff.mp h
  obtain ⟨hive, hhive, rfl⟩ := Option.map_eq_some_iff.mp h
  unfold SaveIo.target SaveIo.filled
  -- the backup touches neither the journal nor the hive
  let mid := ((fs.create .log).write .log (bytes.take log)).exec (.copy .hive .bak)
  have hlog' : mid .log = some (ByteFile.splice ((fs .log).getD []) 0 (bytes.take log)) := by
    change Files.copy _ .hive .bak _ .log = _
    rw [Files.copy_other _ (by decide), Files.write_self _ (fs.create_self .log),
      ByteFile.splice_zero]
  have hhive' : mid .hive = fs .hive := by
    change Files.copy _ .hive .bak _ .hive = _
    rw [Files.copy_other _ (by decide), Files.write_other _ (by decide),
      Files.create_other _ (by decide)]
  cases hren : io.renamed with
  | true =>
    rw [if_pos rfl, if_pos rfl, hlog]
    exact Files.rename_self mid hlog' (by decide)
  | false =>
    rw [hren, if_neg Bool.false_ne_true] at hhive
    rw [if_neg Bool.false_ne_true, if_neg Bool.false_ne_true, hhive, ← hhive']
    change update (Files.write (Files.write (mid.create .hive) .hive (bytes.take hive)) .log
      (le 4 0)) .log none .hive = _
    rw [update_of_ne (by decide), Files.write_other _ (by decide),
      Files.write_self _ (Files.create_self _ .hive), ByteFile.splice_zero]
    rfl

/-- `hive_validate_file`: the payload of a file that is accepted. -/
def hiveValidateFile (crc : List UInt8 → UInt32) (file : Option (List UInt8)) :
    Option (List UInt8) := do
  let file ← file
  let page ← hiveReadValidHeader crc file
  let (data, _, _) ← hiveReadValidatedPayload page file
  return data

/-- What `hive_best_source` does to the files, and whether it returns a path, that of the hive. -/
def hiveBestSource (crc : List UInt8 → UInt32) (fs : Files) : List FileStep × Bool :=
  if (hiveValidateFile crc (fs .log)).isSome then ([.copy .log .hive, hiveInvalidateLog], true)
  else if (hiveValidateFile crc (fs .hive)).isSome then ([], true)
  else if (hiveValidateFile crc (fs .bak)).isSome then ([.copy .bak .hive], true)
  else ([], false)

/-- The payload in the source that a recovery selects. -/
def recovered (crc : List UInt8 → UInt32) (fs : Files) : Option (List UInt8) :=
  if (hiveBestSource crc fs).2 then
    hiveValidateFile crc ((hiveBestSource crc fs).1.foldl Files.exec fs .hive)
  else none

/-! ### Runs -/

inductive HiveEvent
  | save (t : Tree) (root timestamp : ℕ) (renamed : Bool)
  | saveCrash (t : Tree) (root timestamp : ℕ) (renamed : Bool) (done n : ℕ)
  | recover
  | recoverCrash (done n : ℕ)

variable (crc : List UInt8 → UInt32)

def Files.apply (fs : Files) : HiveEvent → Files
  | .save t root timestamp renamed =>
    (hiveSave crc t root timestamp).elim fs fun bytes =>
      (hiveSaveSteps bytes bytes renamed).foldl Files.exec fs
  | .saveCrash t root timestamp renamed done n =>
    (hiveSave crc t root timestamp).elim fs fun bytes =>
      Files.crash n fs (hiveSaveSteps bytes bytes renamed) done
  | .recover => (hiveBestSource crc fs).1.foldl Files.exec fs
  | .recoverCrash done n => Files.crash n fs (hiveBestSource crc fs).1 done

/-- The files after an event, and the payload that a recovery would then select. -/
def Files.observe (fs : Files) (e : HiveEvent) : Files × Option (List UInt8) :=
  (fs.apply crc e, recovered crc (fs.apply crc e))

def noFiles : Files := fun _ => none

/-- What a save serialized. -/
def payloadOf (bytes : List UInt8) : List UInt8 := bytes.drop hiveHeaderSize

/-- What the hive may hold after an event, when it held `old` before: a save puts its payload,
an interrupted one puts it or does not, a recovery changes nothing. A recovery then selects that. -/
inductive Commits (crc : List UInt8 → UInt32) : Option (List UInt8) → HiveEvent →
    Option (List UInt8) → Option (List UInt8) → Prop
  | save {old t root timestamp renamed bytes}
      (hsave : hiveSave crc t root timestamp = some bytes) :
      Commits crc old (.save t root timestamp renamed) (some (payloadOf bytes))
        (some (payloadOf bytes))
  | done {old t root timestamp renamed n m bytes}
      (hsave : hiveSave crc t root timestamp = some bytes) :
      Commits crc old (.saveCrash t root timestamp renamed n m) (some (payloadOf bytes))
        (some (payloadOf bytes))
  | undone {old t root timestamp renamed n m} :
      Commits crc old (.saveCrash t root timestamp renamed n m) old old
  | refused {old t root timestamp renamed} (hsave : hiveSave crc t root timestamp = none) :
      Commits crc old (.save t root timestamp renamed) old old
  | recover {old} : Commits crc old .recover old old
  | recoverCrash {old n m} : Commits crc old (.recoverCrash n m) old old

/-- What is saved is a hive that the check accepts, and a crash stops the write of the journal in
its middle only where the journal had no bytes before. -/
def HiveEvent.Safe (fs : Files) : HiveEvent → Prop
  | .save t root timestamp _ => ∀ bytes, hiveSave crc t root timestamp = some bytes →
      hiveValidateFile crc (some bytes) = some (payloadOf bytes)
  | .saveCrash t root timestamp _ done n => ∀ bytes, hiveSave crc t root timestamp = some bytes →
      hiveValidateFile crc (some bytes) = some (payloadOf bytes) ∧
        (done = 1 → 0 < n → n < bytes.length → (fs .log).getD [] = [])
  | .recover => True
  | .recoverCrash _ _ => True

end ImpossibleOs.Registry
