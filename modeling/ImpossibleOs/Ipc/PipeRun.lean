import ImpossibleOs.Ipc.Pipe
import ImpossibleOs.Lib.Interleave

/-!
Whole runs of a pipe.

The bytes in the ring are a queue. As long as the read end is open, tokens of
`writable`, writers that have taken one, bytes of the queue and readers that have
not yet given one back make up the size of the ring. A reader that closes gives
one token more, and `pipe_write`, which does not look at the pipe again after it
has been woken, takes it for a free cell.
-/

namespace ImpossibleOs.Ipc.Pipe

open Nat
open Function List Option

variable {ι : Type*} {s : State ι} {q : List UInt8}

/-- Tokens of `writable` that the writer has taken and not yet used. -/
def WritePc.taken : WritePc → ℕ
  | .put _ _ => 1
  | _ => 0

/-- The writer has passed the check of `read_open` and has not yet written its byte. -/
def WritePc.Pending : WritePc → Prop
  | .wait _ _ => True
  | .put _ _ => True
  | _ => False

/-- Cells that the reader has emptied and not yet given back. -/
def ReadPc.freed : ReadPc → ℕ
  | .signal _ _ => 1
  | _ => 0

/-- The reader has seen a byte in the buffer and is about to take it. -/
def ReadPc.Sure : ReadPc → Prop
  | .consume _ _ => True
  | .get _ _ => True
  | _ => False

structure Inv (s : State ι) (q : List UInt8) : Prop where
  holds : Ring.Holds pipeBufSize s.mem.buf s.mem.readPos q
  count : s.mem.count = q.length
  bound : s.mem.count ≤ pipeBufSize
  readPos : s.mem.readPos < pipeBufSize
  writePos : s.mem.writePos = (s.mem.readPos + s.mem.count) % pipeBufSize
  tokens :
    s.mem.writable + s.writer.taken + s.mem.count + s.reader.freed = pipeBufSize ∨
      s.mem.readOpen = false ∧ (s.writer.Pending → s.mem.count < pipeBufSize)
  sure : s.reader.Sure → 0 < s.mem.count
  closing : ∀ c, s.closers c = .signal .read → s.mem.readOpen = false

theorem inv_initial (buf : ℕ → UInt8) : Inv (initial buf : State ι) [] where
  holds := Ring.holds_nil
  count := rfl
  bound := Nat.zero_le _
  readPos := zero_lt_succ _
  writePos := rfl
  tokens := .inl rfl
  sure := False.elim
  closing := fun _ h => nomatch h

theorem Inv.writer (h : Inv s q) {w : WritePc} (htaken : w.taken = s.writer.taken)
    (hpending : w.Pending → s.writer.Pending ∨ s.mem.readOpen = true) :
    Inv { s with writer := w } q := by
  refine { h with tokens := ?_ }
  rcases h.tokens with heq | ⟨hclosed, hroom⟩
  · exact .inl (by simpa [htaken] using heq)
  · refine .inr ⟨hclosed, fun hw => ?_⟩
    rcases hpending hw with hwas | hopen
    · exact hroom hwas
    · simp [hclosed] at hopen

theorem Inv.reader (h : Inv s q) {r : ReadPc} (hfreed : r.freed = s.reader.freed)
    (hsure : r.Sure → s.reader.Sure ∨ 0 < s.mem.count) : Inv { s with reader := r } q := by
  refine { h with tokens := ?_, sure := ?_ }
  · simpa only [hfreed] using h.tokens
  · intro hr
    rcases hsure hr with hwas | hcount
    · exact h.sure hwas
    · exact hcount

theorem Inv.closer [DecidableEq ι] (h : Inv s q) (c : ι) {k : ClosePc}
    (hk : k = .signal .read → s.mem.readOpen = false) :
    Inv { s with closers := Function.update s.closers c k } q := by
  refine { h with closing := fun d hd => ?_ }
  rcases eq_or_ne d c with rfl | hne
  · exact hk (by simpa using hd)
  · exact h.closing d (by simpa [hne] using hd)

variable {data : List UInt8} {i len : ℕ}

theorem Inv.wait (h : Inv s q) (hw : s.writer = .wait data i) (hpos : 0 < s.mem.writable) :
    Inv { s with
      mem := { s.mem with writable := s.mem.writable - 1 }, writer := .put data i } q := by
  refine { h with tokens := ?_ }
  have htokens := h.tokens
  simp only [hw, WritePc.taken, WritePc.Pending, true_imp_iff] at htokens ⊢
  rcases htokens with heq | hclosed
  · exact .inl (by omega)
  · exact .inr hclosed

theorem Inv.room (h : Inv s q) (hw : s.writer = .put data i) : s.mem.count < pipeBufSize := by
  have htokens := h.tokens
  simp only [hw, WritePc.taken, WritePc.Pending, true_imp_iff] at htokens
  omega

theorem Inv.put (h : Inv s q) (hw : s.writer = .put data i) (b : UInt8) :
    Inv { s with
      mem := { s.mem with
        buf := Function.update s.mem.buf s.mem.writePos b
        writePos := (s.mem.writePos + 1) % pipeBufSize
        count := s.mem.count + 1 }
      writer := .signal data i } (q ++ [b]) where
  holds := by
    have hpush := h.holds.push (x := b) (h.count ▸ h.room hw)
    rwa [← h.count, ← h.writePos] at hpush
  count := by simp [h.count]
  bound := h.room hw
  readPos := h.readPos
  writePos := by
    rw [h.writePos, mod_add_mod]
    rfl
  tokens := by
    have htokens := h.tokens
    simp only [hw, WritePc.taken, WritePc.Pending, true_imp_iff, false_imp_iff] at htokens ⊢
    rcases htokens with heq | ⟨hclosed, -⟩
    · exact .inl (by omega)
    · exact .inr ⟨hclosed, trivial⟩
  sure := fun _ => succ_pos _
  closing := h.closing

theorem Inv.get (h : Inv s q) (hr : s.reader = .get len i) :
    ∃ rest, q = s.mem.buf s.mem.readPos :: rest ∧
      Inv { s with
        mem := { s.mem with
          readPos := (s.mem.readPos + 1) % pipeBufSize
          count := s.mem.count - 1 }
        reader := .signal len i } rest := by
  have hpos : 0 < s.mem.count := h.sure (by rw [hr]; trivial)
  obtain _ | ⟨b, rest⟩ := q
  · simp [h.count] at hpos
  have hcount : s.mem.count = rest.length + 1 := h.count
  refine ⟨rest, ?_, ?_⟩
  · rw [h.holds.head h.readPos]
  · refine ⟨h.holds.pop, ?_, ?_, ?_, ?_, ?_, ?_, h.closing⟩
    · simp [hcount]
    · exact Nat.le_trans (sub_le _ _) h.bound
    · exact mod_lt _ (zero_lt_succ _)
    · change s.mem.writePos = ((s.mem.readPos + 1) % pipeBufSize + (s.mem.count - 1)) % pipeBufSize
      rw [h.writePos, mod_add_mod, Nat.add_assoc, Nat.add_sub_cancel' hpos]
    · have htokens := h.tokens
      simp only [hr, ReadPc.freed] at htokens ⊢
      rcases htokens with heq | ⟨hclosed, hroom⟩
      · exact .inl (by omega)
      · exact .inr ⟨hclosed, fun hw => Nat.lt_of_le_of_lt (sub_le _ _) (hroom hw)⟩
    · exact False.elim

theorem Inv.giveBack (h : Inv s q) (hr : s.reader = .signal len i) {r : ReadPc}
    (hfreed : r.freed = 0) (hsure : ¬ r.Sure) :
    Inv { s with mem := { s.mem with writable := s.mem.writable + 1 }, reader := r } q := by
  refine { h with tokens := ?_, sure := fun hs => absurd hs hsure }
  have htokens := h.tokens
  simp only [hr, ReadPc.freed] at htokens
  rcases htokens with heq | hclosed
  · exact .inl (by simp only [hfreed]; omega)
  · exact .inr hclosed

theorem Inv.wake (h : Inv s q) {c : ι} (hc : s.closers c = .signal .read)
    (hroom : ∀ data i, s.writer = .wait data i → s.mem.count < pipeBufSize) :
    Inv { s with mem := { s.mem with writable := s.mem.writable + 1 } } q := by
  refine { h with tokens := .inr ⟨h.closing c hc, ?_⟩ }
  intro hpending
  match hw : s.writer with
  | .wait data i => exact hroom data i hw
  | .put data i => exact h.room hw
  | .idle | .enterUse _ | .enterWrite _ | .enterRead _ | .check _ _ | .signal _ _ =>
    simp [hw, WritePc.Pending] at hpending

variable {ι : Type*} [DecidableEq ι] {s s' : State ι} {q : List UInt8}

/-- The bytes a step takes from the writer. -/
def Event.written : Event → List UInt8
  | .put b => [b]
  | _ => []

/-- The bytes a step gives to the reader. -/
def Event.delivered : Event → List UInt8
  | .got b => [b]
  | _ => []

/-- The bytes accepted from the writer. -/
def written (es : List Event) : List UInt8 :=
  es.flatMap Event.written

/-- The bytes delivered to the reader. -/
def delivered (es : List Event) : List UInt8 :=
  es.flatMap Event.delivered

/-- What a step does to the queue of the bytes in the buffer. -/
def Event.Moves (ev : Event) (q q' : List UInt8) : Prop :=
  q ++ ev.written = ev.delivered ++ q'

/-- The token of a reader that closes does not meet a writer that waits at a full buffer. -/
def NoFullWake (s : State ι) : Turn ι → Prop
  | .closer c =>
    s.closers c = .signal .read →
      ∀ data i, s.writer = .wait data i → s.mem.count < pipeBufSize
  | _ => True

theorem moves_silent : Event.silent.Moves q q :=
  append_nil q

theorem moves_returned (res : ℤ) : (Event.returned res).Moves q q :=
  append_nil q

variable {ev : Event}

theorem writeLoop_spec {data : List UInt8} {i : ℕ} {w : WritePc}
    (h : writeLoop data i = (w, ev)) : w.taken = 0 ∧ ¬ w.Pending ∧ ev.Moves q q := by
  unfold writeLoop at h
  split at h
  · cases h
    exact ⟨rfl, id, moves_silent⟩
  · cases h
    exact ⟨rfl, id, moves_returned _⟩

theorem readLoop_spec {len i : ℕ} {r : ReadPc} (h : readLoop len i = (r, ev)) :
    r.freed = 0 ∧ ¬ r.Sure ∧ ev.Moves q q := by
  unfold readLoop at h
  split at h
  · cases h
    exact ⟨rfl, id, moves_silent⟩
  · cases h
    exact ⟨rfl, id, moves_returned _⟩

omit [DecidableEq ι] in
theorem Inv.goWrite_spec (h : Inv s q) {m : Mem} {w : WritePc}
    (hgo : goWrite s.mem s.writer = some (m, w, ev)) :
    ∃ q', Inv { s with mem := m, writer := w } q' ∧ ev.Moves q q' := by
  have quiet : ∀ {w' : WritePc}, s.writer.taken = 0 → w'.taken = 0 → ¬ w'.Pending →
      Inv { s with writer := w' } q := fun hs hw' hp =>
    h.writer (hw'.trans hs.symm) (fun hpending => absurd hpending hp)
  match hw : s.writer with
  | .idle => simp [hw, goWrite] at hgo
  | .enterUse data | .enterWrite data =>
    simp only [hw, goWrite, some.injEq] at hgo
    split at hgo
    · cases hgo
      exact ⟨q, quiet (by rw [hw]; rfl) rfl id, moves_silent⟩
    · cases hgo
      exact ⟨q, quiet (by rw [hw]; rfl) rfl id, moves_returned _⟩
  | .enterRead data =>
    simp only [hw, goWrite, some.injEq] at hgo
    split at hgo
    · obtain ⟨rfl, hloop⟩ := Prod.mk.inj hgo
      obtain ⟨htaken, hpending, hmoves⟩ := writeLoop_spec hloop
      exact ⟨q, quiet (by rw [hw]; rfl) htaken hpending, hmoves⟩
    · cases hgo
      exact ⟨q, quiet (by rw [hw]; rfl) rfl id, moves_returned _⟩
  | .check data i =>
    simp only [hw, goWrite, some.injEq] at hgo
    split at hgo
    · rename_i hopen
      cases hgo
      exact ⟨q, h.writer (by rw [hw]; rfl) (fun _ => .inr hopen), moves_silent⟩
    · cases hgo
      exact ⟨q, quiet (by rw [hw]; rfl) rfl id, moves_returned _⟩
  | .wait data i =>
    simp only [hw, goWrite] at hgo
    split at hgo
    · rename_i hpos
      cases hgo
      exact ⟨q, h.wait hw hpos, moves_silent⟩
    · cases hgo
  | .put data i =>
    simp only [hw, goWrite, map_eq_some_iff] at hgo
    obtain ⟨b, -, hgo⟩ := hgo
    cases hgo
    exact ⟨q ++ [b], h.put hw b, rfl⟩
  | .signal data i =>
    simp only [hw, goWrite, some.injEq] at hgo
    obtain ⟨rfl, hloop⟩ := Prod.mk.inj hgo
    obtain ⟨htaken, hpending, hmoves⟩ := writeLoop_spec hloop
    exact ⟨q, { quiet (by rw [hw]; rfl) htaken hpending with }, hmoves⟩

omit [DecidableEq ι] in
theorem Inv.goRead_spec (h : Inv s q) {m : Mem} {r : ReadPc}
    (hgo : goRead s.mem s.reader = some (m, r, ev)) :
    ∃ q', Inv { s with mem := m, reader := r } q' ∧ ev.Moves q q' := by
  have quiet : ∀ {r : ReadPc}, s.reader.freed = 0 → r.freed = 0 → ¬ r.Sure →
      Inv { s with reader := r } q := fun hs hr hp =>
    h.reader (hr.trans hs.symm) (fun hsure => absurd hsure hp)
  match hr : s.reader with
  | .idle => simp [hr, goRead] at hgo
  | .enterUse len =>
    simp only [hr, goRead, some.injEq] at hgo
    split at hgo
    · cases hgo
      exact ⟨q, quiet (by rw [hr]; rfl) rfl id, moves_silent⟩
    · cases hgo
      exact ⟨q, quiet (by rw [hr]; rfl) rfl id, moves_returned _⟩
  | .enterRead len =>
    simp only [hr, goRead, some.injEq] at hgo
    split at hgo
    · obtain ⟨rfl, hloop⟩ := Prod.mk.inj hgo
      obtain ⟨hfreed, hsure, hmoves⟩ := readLoop_spec hloop
      exact ⟨q, quiet (by rw [hr]; rfl) hfreed hsure, hmoves⟩
    · cases hgo
      exact ⟨q, quiet (by rw [hr]; rfl) rfl id, moves_returned _⟩
  | .eofOpen len i | .whileCount len i | .whileOpen len i | .againOpen len i =>
    simp only [hr, goRead, some.injEq] at hgo
    cases hgo
    refine ⟨q, quiet (by rw [hr]; rfl) ?_ ?_, moves_silent⟩
    · split <;> rfl
    · split <;> exact id
  | .eofCount len i | .againCount len i =>
    simp only [hr, goRead, some.injEq] at hgo
    split at hgo
    · cases hgo
      exact ⟨q, quiet (by rw [hr]; rfl) rfl id, moves_returned _⟩
    · cases hgo
      exact ⟨q, quiet (by rw [hr]; rfl) rfl id, moves_silent⟩
  | .test len i =>
    simp only [hr, goRead, some.injEq] at hgo
    split at hgo
    · split at hgo
      · cases hgo
        exact ⟨q, quiet (by rw [hr]; rfl) rfl id, moves_returned _⟩
      · cases hgo
        exact ⟨q, quiet (by rw [hr]; rfl) rfl id, moves_silent⟩
    · rename_i hcount
      cases hgo
      exact ⟨q, h.reader (by rw [hr]; rfl) (fun _ => .inr (Nat.pos_of_ne_zero hcount)),
        moves_silent⟩
  | .block len i =>
    simp only [hr, goRead] at hgo
    split at hgo
    · cases hgo
      exact ⟨q, { quiet (r := .againOpen len i) (by rw [hr]; rfl) rfl id with }, moves_silent⟩
    · cases hgo
  | .last len i =>
    simp only [hr, goRead, some.injEq] at hgo
    split at hgo
    · cases hgo
      exact ⟨q, quiet (by rw [hr]; rfl) rfl id, moves_returned _⟩
    · rename_i hcount
      cases hgo
      exact ⟨q, h.reader (by rw [hr]; rfl) (fun _ => .inr (Nat.pos_of_ne_zero hcount)),
        moves_silent⟩
  | .consume len i =>
    simp only [hr, goRead] at hgo
    split at hgo
    · cases hgo
      exact ⟨q, { h.reader (r := .get len i) (by rw [hr]; rfl)
        (fun _ => .inl (by rw [hr]; trivial)) with }, moves_silent⟩
    · cases hgo
  | .get len i =>
    simp only [hr, goRead, some.injEq] at hgo
    cases hgo
    obtain ⟨rest, hq, hinv⟩ := h.get hr
    refine ⟨rest, hinv, ?_⟩
    simpa [Event.Moves, Event.written, Event.delivered] using hq
  | .signal len i =>
    simp only [hr, goRead, some.injEq] at hgo
    obtain ⟨rfl, hloop⟩ := Prod.mk.inj hgo
    obtain ⟨hfreed, hsure, hmoves⟩ := readLoop_spec hloop
    exact ⟨q, h.giveBack hr hfreed hsure, hmoves⟩

theorem Inv.goClose_spec (h : Inv s q) {c : ι} (hcond : NoFullWake s (.closer c)) {m : Mem}
    {k : ClosePc} (hgo : goClose s.mem (s.closers c) = some (m, k)) :
    Inv { s with mem := m, closers := update s.closers c k } q := by
  match hc : s.closers c with
  | .idle => simp [hc, goClose] at hgo
  | .enter e | .testRead | .testWrite =>
    simp only [hc, goClose, some.injEq] at hgo
    cases hgo
    exact h.closer c (by split <;> exact nofun)
  | .mark .read =>
    simp only [hc, goClose, some.injEq] at hgo
    cases hgo
    have hclosed : Inv { s with mem := { s.mem with readOpen := false } } q :=
      { h with
        tokens := h.tokens.imp_right (fun hclosed => ⟨rfl, hclosed.2⟩)
        closing := fun _ _ => rfl }
    exact hclosed.closer c (fun _ => rfl)
  | .mark .write =>
    simp only [hc, goClose, some.injEq] at hgo
    cases hgo
    exact { h.closer c (k := .signal .write) nofun with }
  | .signal .read =>
    simp only [hc, goClose, some.injEq] at hgo
    cases hgo
    exact (h.wake hc (hcond hc)).closer c nofun
  | .signal .write =>
    simp only [hc, goClose, some.injEq] at hgo
    cases hgo
    exact { h.closer c (k := .testRead) nofun with }
  | .free =>
    simp only [hc, goClose, some.injEq] at hgo
    cases hgo
    exact { h.closer c (k := .idle) nofun with }

theorem Inv.step_spec (h : Inv s q) {t : Turn ι} (hcond : NoFullWake s t)
    (hstep : step s t = some (s', ev)) : ∃ q', Inv s' q' ∧ ev.Moves q q' := by
  match t with
  | .write data =>
    simp only [step] at hstep
    split at hstep
    · rename_i hw
      cases hstep
      exact ⟨q, h.writer (by rw [hw]; rfl) False.elim, moves_silent⟩
    · cases hstep
  | .read len =>
    simp only [step] at hstep
    split at hstep
    · rename_i hr
      cases hstep
      exact ⟨q, h.reader (by rw [hr]; rfl) False.elim, moves_silent⟩
    · cases hstep
  | .close c e =>
    simp only [step] at hstep
    split at hstep
    · cases hstep
      exact ⟨q, h.closer c nofun, moves_silent⟩
    · cases hstep
  | .writer =>
    simp only [step, map_eq_some_iff] at hstep
    obtain ⟨⟨m, w, ev'⟩, hgo, hstep⟩ := hstep
    cases hstep
    exact h.goWrite_spec hgo
  | .reader =>
    simp only [step, map_eq_some_iff] at hstep
    obtain ⟨⟨m, r, ev'⟩, hgo, hstep⟩ := hstep
    cases hstep
    exact h.goRead_spec hgo
  | .closer c =>
    simp only [step, map_eq_some_iff] at hstep
    obtain ⟨⟨m, k⟩, hgo, hstep⟩ := hstep
    cases hstep
    exact ⟨q, h.goClose_spec hcond hgo, moves_silent⟩

/-- In a run in which no reader closes while the writer waits at a full buffer, the reader
receives what the writer has written, in this order, and the count of the bytes in the buffer
agrees with the two positions. -/
theorem pipe_byte_stream {buf : ℕ → UInt8} {ts : List (Turn ι)} {es : List Event}
    (hrun : Refine.run step (initial buf) ts = some (s, es))
    (hcond : Refine.Along step NoFullWake (initial buf) ts) :
    delivered es <+: written es ∧ s.mem.count ≤ pipeBufSize ∧
      s.mem.writePos = (s.mem.readPos + s.mem.count) % pipeBufSize ∧
      ∀ len i, s.reader = .get len i → 0 < s.mem.count := by
  have hstart : Inv (initial buf : State ι) [] ∧ written [] = delivered [] ++ [] :=
    ⟨inv_initial buf, rfl⟩
  have hinv := Refine.run_invariant
    (fun s es => ∃ q, Inv s q ∧ written es = delivered es ++ q)
    (fun s es t s' ev hs ht hstep => by
      obtain ⟨q, hq, hes⟩ := hs
      obtain ⟨q', hq', hmoves⟩ := hq.step_spec ht hstep
      refine ⟨q', hq', ?_⟩
      calc
        written (es ++ [ev]) = delivered es ++ (q ++ ev.written) := by
          simp only [written] at hes ⊢
          simp [hes]
        _ = delivered es ++ (ev.delivered ++ q') := by rw [hmoves]
        _ = delivered (es ++ [ev]) ++ q' := by simp [delivered])
    ⟨[], hstart⟩ hcond hrun
  obtain ⟨q, hq, hes⟩ := hinv
  refine ⟨⟨q, hes.symm⟩, hq.bound, hq.writePos, fun len i hr => hq.sure ?_⟩
  rw [hr]
  trivial

/-- A byte goes through the pipe, and then the reader closes. -/
theorem pipe_byte_stream_sample :
    let ts : List (Turn Unit) :=
      [.write [7], .writer, .writer, .writer, .writer, .writer, .writer, .writer, .read 1,
        .reader, .reader, .reader, .reader, .reader, .reader, .close () .read, .closer (),
        .closer (), .closer ()]
    ∃ s es, Refine.run step (initial fun _ => 0) ts = some (s, es) ∧
      delivered es = [7] ∧ delivered es <+: written es ∧ s.mem.count ≤ pipeBufSize := by
  intro ts
  refine ⟨_, _, rfl, rfl, ?_⟩
  have h := @pipe_byte_stream Unit _ _ (fun _ => 0) ts _ rfl ?_
  · exact ⟨h.1, h.2.1⟩
  · iterate 16 refine Refine.along_cons trivial rfl ?_
    iterate 3 refine Refine.along_cons (fun _ _ _ hw => nomatch hw) rfl ?_
    trivial

/-! ### A reader that closes while the writer waits at a full buffer -/

section FullWake

variable {m : Mem} {r : ReadPc} {cl : Unit → ClosePc} {data : List UInt8} {i : ℕ} {b : UInt8}

theorem step_writer {m' : Mem} {w w' : WritePc} {ev : Event} (h : goWrite m w = some (m', w', ev)) :
    step (⟨m, w, r, cl⟩ : State Unit) .writer = some (⟨m', w', r, cl⟩, ev) := by
  rw [step, h]
  rfl

variable {w : WritePc}

theorem step_reader {m' : Mem} {r' : ReadPc} {ev : Event} (h : goRead m r = some (m', r', ev)) :
    step (⟨m, w, r, cl⟩ : State Unit) .reader = some (⟨m', w, r', cl⟩, ev) := by
  rw [step, h]
  rfl

theorem step_closer {m' : Mem} {c c' : ClosePc}
    (h : goClose m c = some (m', c')) :
    step (⟨m, w, r, fun _ => c⟩ : State Unit) (.closer ()) =
      some (⟨m', w, r, fun _ => c'⟩, .silent) := by
  have hcl : update (fun _ : Unit => c) () c' = fun _ => c' := by
    funext u
    exact update_self ..
  rw [step, h, map_some, hcl]

theorem run_byte (hopen : m.readOpen = true) (hroom : 0 < m.writable) (hb : data[i]? = some b)
    (hnext : i + 1 < data.length) :
    Refine.run step (⟨m, .check data i, r, cl⟩ : State Unit)
        [.writer, .writer, .writer, .writer] =
      some (⟨{ m with
        buf := update m.buf m.writePos b
        writePos := (m.writePos + 1) % pipeBufSize
        count := m.count + 1
        readable := m.readable + 1
        writable := m.writable - 1 }, .check data (i + 1), r, cl⟩,
        [.silent, .silent, .put b, .silent]) := by
  refine Refine.run_cons (step_writer (by rw [goWrite, if_pos hopen])) ?_
  refine Refine.run_cons (step_writer (by rw [goWrite, if_pos hroom])) ?_
  refine Refine.run_cons (step_writer (by rw [goWrite, hb, map_some])) ?_
  exact Refine.run_cons (step_writer (by rw [goWrite, writeLoop, if_pos hnext])) rfl

theorem written_append (es es' : List Event) : written (es ++ es') = written es ++ written es' :=
  flatMap_append

theorem delivered_append (es es' : List Event) :
    delivered (es ++ es') = delivered es ++ delivered es' :=
  flatMap_append

theorem run_fill (hlen : data.length = pipeBufSize + 1) {n : ℕ} (hn : n ≤ pipeBufSize) :
    ∃ ts buf es, Refine.run step
        (⟨⟨fun _ => 0, 0, 0, 0, 0, pipeBufSize, true, true, true⟩, .check data 0, r, cl⟩ :
          State Unit) ts =
      some (⟨⟨buf, 0, n % pipeBufSize, n, n, pipeBufSize - n, true, true, true⟩,
        .check data n, r, cl⟩, es) ∧
      written es = data.take n ∧ delivered es = [] := by
  induction n with
  | zero => exact ⟨[], _, [], rfl, rfl, rfl⟩
  | succ n ih =>
    obtain ⟨ts, buf, es, hrun, hwritten, hdelivered⟩ := ih (Nat.le_of_succ_le hn)
    have hlt : n < data.length := by omega
    have hbyte := @run_byte ⟨buf, 0, n % pipeBufSize, n, n, pipeBufSize - n, true, true,
        true⟩ r cl _ _ _ rfl (Nat.sub_pos_of_lt hn) (getElem?_eq_getElem hlt)
      (by omega)
    simp only [Nat.mod_add_mod, Nat.sub_sub] at hbyte
    refine ⟨_, _, _, Refine.run_append hrun hbyte, ?_, ?_⟩
    · rw [written_append, hwritten, ← take_concat_get' data n hlt]
      rfl
    · rw [delivered_append, hdelivered]
      rfl

theorem run_wake (huse : m.inUse = true) (hopen : m.readOpen = true)
    (hb : data[i]? = some b) :
    Refine.run step (⟨m, .check data i, r, fun _ => .idle⟩ : State Unit)
        [.writer, .close () .read, .closer (), .closer (), .closer (), .writer, .writer] =
      some (⟨{ m with
        buf := update m.buf m.writePos b
        writePos := (m.writePos + 1) % pipeBufSize
        count := m.count + 1
        readOpen := false }, .signal data i, r, fun _ => .testRead⟩,
        [.silent, .silent, .silent, .silent, .silent, .silent, .put b]) := by
  have hclose : step (⟨m, .wait data i, r, fun _ => .idle⟩ : State Unit) (.close () .read) =
      some (⟨m, .wait data i, r, fun _ => .enter .read⟩, .silent) := by
    have hcl : update (fun _ : Unit => ClosePc.idle) () (.enter .read) =
        fun _ => .enter .read := by
      funext u
      exact update_self ..
    show some (State.mk m _ r (update _ _ _), Event.silent) = _
    rw [hcl]
  refine Refine.run_cons (step_writer (by rw [goWrite, if_pos hopen])) ?_
  refine Refine.run_cons hclose ?_
  refine Refine.run_cons (step_closer (by rw [goClose, if_pos huse])) ?_
  refine Refine.run_cons (step_closer (by rw [goClose])) ?_
  refine Refine.run_cons (step_closer (by rw [goClose])) ?_
  -- the token of the close lets the writer through
  refine Refine.run_cons (step_writer (by rw [goWrite, if_pos (Nat.succ_pos _)])) ?_
  refine Refine.run_cons (step_writer (by rw [goWrite, hb, map_some])) ?_
  rw [Refine.run, Nat.add_sub_cancel]

theorem run_take (hopen : m.writeOpen = true) (hcount : m.count ≠ 0) (hreadable : 0 < m.readable) :
    ∃ s' es, Refine.run step (⟨m, w, .eofOpen 1 0, cl⟩ : State Unit)
        [.reader, .reader, .reader, .reader] = some (s', es) ∧
      written es = [] ∧ delivered es = [m.buf m.readPos] := by
  refine ⟨⟨{ m with
      readable := m.readable - 1
      readPos := (m.readPos + 1) % pipeBufSize
      count := m.count - 1 }, w, .signal 1 0, cl⟩,
    [.silent, .silent, .silent, .got (m.buf m.readPos)], ?_, rfl, rfl⟩
  refine Refine.run_cons (step_reader (by rw [goRead, if_pos hopen])) ?_
  refine Refine.run_cons (step_reader (by rw [goRead, if_neg hcount])) ?_
  refine Refine.run_cons (step_reader (by rw [goRead, if_pos hreadable])) ?_
  exact Refine.run_cons (step_reader (by rw [goRead])) rfl

/-- The writer waits with a byte too many; the reader that closes wakes it, and it writes over
the oldest byte, which the reader that is still reading then receives. -/
theorem pipe_close_overwrites :
    let data : List UInt8 := List.replicate pipeBufSize 7 ++ [8]
    ∃ (ts : List (Turn Unit)) (s : State Unit) (es : List Event),
      .write data ∈ ts ∧ Refine.run step (initial fun _ => 0) ts = some (s, es) ∧
      s.mem.count = pipeBufSize + 1 ∧
      ∃ ts' s' es', Refine.run step s ts' = some (s', es') ∧
        ¬ delivered (es ++ es') <+: written (es ++ es') := by
  intro data
  have hlen : data.length = pipeBufSize + 1 := by
    rw [length_append, length_replicate, length_singleton]
  have hlast : data[pipeBufSize]? = some 8 := by
    rw [List.getElem?_append_right (by rw [length_replicate]), length_replicate,
      Nat.sub_self]
    rfl
  have hfirst : data.take pipeBufSize = 7 :: List.replicate (pipeBufSize - 1) 7 := by
    rw [take_append_of_le_length (by simp), take_replicate]
    rfl
  clear_value data
  have hpos : 0 < data.length := hlen ▸ Nat.succ_pos _
  have hbegin : Refine.run step (initial (fun _ => 0) : State Unit)
      [.read 1, .reader, .reader, .write data, .writer, .writer, .writer] =
        some (⟨⟨fun _ => 0, 0, 0, 0, 0, pipeBufSize, true, true, true⟩, .check data 0,
          .eofOpen 1 0, fun _ => .idle⟩,
          [.silent, .silent, .silent, .silent, .silent, .silent, .silent]) := by
    have hcheck : goWrite ⟨fun _ => 0, 0, 0, 0, 0, pipeBufSize, true, true, true⟩
        (.enterRead data) =
          some (⟨fun _ => 0, 0, 0, 0, 0, pipeBufSize, true, true, true⟩, .check data 0,
            .silent) := by
      rw [goWrite, if_pos rfl, writeLoop, if_pos hpos]
    have hsteps : Refine.run step (initial (fun _ => 0) : State Unit)
        [.read 1, .reader, .reader, .write data, .writer, .writer] =
          some (⟨⟨fun _ => 0, 0, 0, 0, 0, pipeBufSize, true, true, true⟩, .enterRead data,
            .eofOpen 1 0, fun _ => .idle⟩,
            [.silent, .silent, .silent, .silent, .silent, .silent]) := rfl
    exact Refine.run_append hsteps (Refine.run_cons (step_writer hcheck) rfl)
  obtain ⟨ts, buf, es, hfill, hwritten, hdelivered⟩ :=
    @run_fill (.eofOpen 1 0) (fun _ => .idle) _ hlen _ (Nat.le_refl _)
  have hwake := run_wake (m := ⟨buf, 0, pipeBufSize % pipeBufSize, pipeBufSize, pipeBufSize,
    pipeBufSize - pipeBufSize, true, true, true⟩) (r := .eofOpen 1 0) rfl rfl hlast
  have hrun := Refine.run_append (Refine.run_append hbegin hfill) hwake
  obtain ⟨s', es', htake, hnone, hgot⟩ := @run_take ⟨update buf
    (pipeBufSize % pipeBufSize) 8, 0, (pipeBufSize % pipeBufSize + 1) % pipeBufSize,
    pipeBufSize + 1, pipeBufSize, pipeBufSize - pipeBufSize, false, true, true⟩
    (fun _ => .testRead) (.signal data pipeBufSize) rfl (Nat.succ_ne_zero _)
    (Nat.zero_lt_succ _)
  have hfirstOut : delivered es' = [8] := by
    rw [hgot, Nat.mod_self]
    show [update buf 0 8 0] = _
    rw [update_self]
  refine ⟨_, _, _, ?_, hrun, rfl, _, s', es', htake, ?_⟩
  · exact mem_append_left _ (mem_append_left _ (by simp))
  · rw [delivered_append, delivered_append, delivered_append, hdelivered, hfirstOut, written_append,
      written_append, written_append, hwritten, hfirst, hnone]
    -- 8 comes out, 7 went in first
    rintro ⟨rest, hrest⟩
    injection hrest with hhead
    exact absurd hhead (by decide)

end FullWake

end ImpossibleOs.Ipc.Pipe
