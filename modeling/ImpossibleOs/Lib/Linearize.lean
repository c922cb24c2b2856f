import ImpossibleOs.Lib.Interleave

/-!
Linearizability.

An atomic object takes calls from any number of threads. A call of it takes
effect at one point between its invocation and its return, and returns what the
sequential specification gives there. A history of invocations and returns is
linearizable when such points can be put into it.
-/

namespace Linearize

open Function List

variable {Tid α Op Ret : Type*}

/-- What the callers see. -/
inductive Event (Op Ret : Type*)
  | call (op : Op)
  | ret (r : Ret)

/-- Where a caller stands. -/
inductive Phase (Op Ret : Type*)
  | idle
  | pending (op : Op)
  | done (r : Ret)

/-- A history with the points at which the calls take effect. -/
inductive Act (Op Ret : Type*)
  | call (op : Op)
  | effect
  | ret (r : Ret)

def Act.visible : Act Op Ret → Option (Event Op Ret)
  | .call op => some (.call op)
  | .effect => none
  | .ret r => some (.ret r)

/-- The state of the specification, and where each caller stands. -/
structure Object (Tid α Op Ret : Type*) where
  state : α
  phase : Tid → Phase Op Ret

variable [DecidableEq Tid] [DecidableEq Ret]

/-- One act at the atomic object, when it is the caller's turn for it. -/
def exec (spec : α → Op → α × Ret) (o : Object Tid α Op Ret) (i : Tid × Act Op Ret) :
    Option (Object Tid α Op Ret) :=
  match o.phase i.1, i.2 with
  | .idle, .call op => some { o with phase := update o.phase i.1 (.pending op) }
  | .pending op, .effect =>
    some ⟨(spec o.state op).1, update o.phase i.1 (.done (spec o.state op).2)⟩
  | .done r, .ret r' =>
    if r = r' then some { o with phase := update o.phase i.1 .idle } else none
  | _, _ => none

/-- The history without the points. -/
def history (acts : List (Tid × Act Op Ret)) : List (Tid × Event Op Ret) :=
  acts.filterMap fun i => i.2.visible.map (i.1, ·)

/-- Points can be put into the history that explain it, from the state `a` on. -/
def Linearizable (spec : α → Op → α × Ret) (a : α) (h : List (Tid × Event Op Ret)) : Prop :=
  ∃ acts o, List.foldlM (exec spec) ⟨a, fun _ => .idle⟩ acts = some o ∧ history acts = h

variable {spec : α → Op → α × Ret} {a : α} {o : Object Tid α Op Ret} {t : Tid}

theorem exec_call {op : Op} (h : o.phase t = .idle) :
    exec spec o (t, .call op) = some ⟨o.state, update o.phase t (.pending op)⟩ := by
  simp [exec, h]

theorem exec_effect {op : Op} (h : o.phase t = .pending op) : exec spec o (t, .effect) =
      some ⟨(spec o.state op).1, update o.phase t (.done (spec o.state op).2)⟩ := by
  simp [exec, h]

theorem exec_ret {r : Ret} (h : o.phase t = .done r) :
    exec spec o (t, .ret r) = some ⟨o.state, update o.phase t .idle⟩ := by
  simp [exec, h]

theorem exec_effect_ret {op : Op} (h : o.phase t = .pending op) :
    foldlM (exec spec) o [(t, .effect), (t, .ret (spec o.state op).2)] =
      some ⟨(spec o.state op).1, update o.phase t .idle⟩ := by
  simp [exec, h]

/-- The run so far has been explained, and the object stands where `R` says. -/
def Explained (spec : α → Op → α × Ret) (a : α) (h : List (Tid × Event Op Ret))
    (R : Object Tid α Op Ret → Prop) : Prop :=
  ∃ acts o, List.foldlM (exec spec) ⟨a, fun _ => .idle⟩ acts = some o ∧ history acts = h ∧ R o

theorem Explained.linearizable {h : List (Tid × Event Op Ret)} {R : Object Tid α Op Ret → Prop}
    (hx : Explained spec a h R) : Linearizable spec a h := by
  obtain ⟨acts, o, hrun, hhist, -⟩ := hx
  exact ⟨acts, o, hrun, hhist⟩

theorem Explained.nil {R : Object Tid α Op Ret → Prop} (h : R ⟨a, fun _ => .idle⟩) :
    Explained spec a [] R :=
  ⟨[], _, rfl, rfl, h⟩

theorem Explained.append {h h' : List (Tid × Event Op Ret)} {R R' : Object Tid α Op Ret → Prop}
    (hx : Explained spec a h R) (acts : List (Tid × Act Op Ret)) (hhist : history acts = h')
    (hacts : ∀ o, R o → ∃ o', foldlM (exec spec) o acts = some o' ∧ R' o') :
    Explained spec a (h ++ h') R' := by
  obtain ⟨acts₀, o, hrun, rfl, hR⟩ := hx
  obtain ⟨o', hrun', hR'⟩ := hacts o hR
  refine ⟨acts₀ ++ acts, o', ?_, ?_, hR'⟩
  · rw [foldlM_append, hrun]
    exact hrun'
  · rw [← hhist, history, history, history, filterMap_append]

end Linearize
