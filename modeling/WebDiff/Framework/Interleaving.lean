import Mathlib.Data.List.DropRight
import WebDiff.Framework.Program

/-!
# Threads that share a state

Several programs run on one state, and the atomic operations of the threads interleave in any
order. The order is a schedule, the list of the threads that take the steps (`Pool.run`), and a run
leaves behind the operations it performed, each with its thread (`Pool.trace`).

The programs need not be looked into once every thread is known to stand at one of a set of places
between two operations: a machine on the places that takes the steps of the threads makes the run of
the pool (`Pool.run_view`).
-/

namespace Program

variable {Op : Type} {Res : Op → Type} {α S ι : Type}

/-- A shared state, and what is left of the program of each thread. -/
structure Pool (Op : Type) (Res : Op → Type) (α S ι : Type) where
  state : S
  threads : ι → Program Op Res α

namespace Pool

/-- The operation the thread performs next, if it has not finished. -/
def next (c : Pool Op Res α S ι) (i : ι) : Option Op :=
  match c.threads i with
  | .ret _ => none
  | .step o _ => some o

/-- No thread has an operation left. -/
def Finished (c : Pool Op Res α S ι) : Prop :=
  ∀ i, c.next i = none

variable [DecidableEq ι] (I : Interp Op Res S)

/-- The thread performs its next operation. A thread that has finished does nothing. -/
def step (c : Pool Op Res α S ι) (i : ι) : Pool Op Res α S ι :=
  match c.threads i with
  | .ret _ => c
  | .step o k => ⟨(I o c.state).2, Function.update c.threads i (k (I o c.state).1)⟩

/-- The threads take their steps in the order of the schedule. -/
def run (c : Pool Op Res α S ι) (schedule : List ι) : Pool Op Res α S ι :=
  schedule.foldl (step I) c

/-- The operations of a run, each with the thread that performs it. -/
def trace (c : Pool Op Res α S ι) : List ι → List (ι × Op)
  | [] => []
  | i :: rest => (c.next i).toList.map (Prod.mk i) ++ trace (c.step I i) rest

variable {I} {c : Pool Op Res α S ι}

theorem trace_concat (schedule : List ι) (i : ι) :
    c.trace I (schedule ++ [i])
      = c.trace I schedule ++ ((c.run I schedule).next i).toList.map (Prod.mk i) := by
  induction schedule generalizing c with
  | nil => exact List.append_nil _
  | cons j rest ih =>
    rw [List.cons_append, trace, ih, trace, List.append_assoc]
    rfl

/-- **Places.** A machine whose states are looked at as pools, and which takes the steps of the
pools, makes their runs. -/
theorem run_view {T : Type} (view : T → Pool Op Res α S ι) (move : T → ι → T)
    (h : ∀ t i, (view t).step I i = view (move t i)) (t : T) (schedule : List ι) :
    (view t).run I schedule = view (schedule.foldl move t) := by
  induction schedule generalizing t with
  | nil => rfl
  | cons i rest ih =>
    rw [run, List.foldl_cons, h]
    exact ih (move t i)

/-! ### The operations of other threads -/

/-- The part of a trace behind the last operation of the thread. -/
def since (i : ι) (es : List (ι × Op)) : List (ι × Op) :=
  es.rtakeWhile fun e => e.1 ≠ i

theorem since_concat_self (i : ι) (es : List (ι × Op)) (o : Op) :
    since i (es ++ [(i, o)]) = [] := by
  simp [since]

theorem since_concat_of_ne {i j : ι} (h : j ≠ i) (es : List (ι × Op)) (o : Op) :
    since i (es ++ [(j, o)]) = since i es ++ [(j, o)] := by
  simp [since, h]

end Pool

end Program
