import Mathlib.Tactic

/-!
Programs that ask an environment questions: a store that may fail a query, a
subprocess that may not start.

`Asks Q A α` is a program that asks questions of type `Q`, continues with the answers
of type `A`, and returns an `α`. An oracle answers; its answer may depend on how many
questions came before, so the same question may be answered and later fail.
`exec` runs a program against an oracle and records the questions with their answers.
`Always p post` is the weakest precondition of `post` over all oracles: it holds when
every run of `p` ends with a result and a record that satisfy `post`, and it is
computed over the structure of the program (`always_bind`).
-/

namespace AutomatisedPipeline

/-- A program that asks questions and returns a value. -/
inductive Asks (Q A α : Type) where
  | done (a : α)
  | ask (q : Q) (k : A → Asks Q A α)

namespace Asks

variable {Q A Q' α β : Type}

def bind : Asks Q A α → (α → Asks Q A β) → Asks Q A β
  | .done a, f => f a
  | .ask q k, f => .ask q fun answer => (k answer).bind f

instance : Monad (Asks Q A) where
  pure := .done
  bind := bind

/-- The program that asks one question. -/
def question (q : Q) : Asks Q A A := .ask q .done

/-- A program whose questions are put in another form. -/
def mapAsk (f : Q → Q') : Asks Q A α → Asks Q' A α
  | .done a => .done a
  | .ask q k => .ask (f q) fun answer => (k answer).mapAsk f

/-- The run of a program against an oracle, `n` questions after its start: the result
and the record of the questions asked, with their answers. -/
def exec (oracle : Nat → Q → A) : Nat → Asks Q A α → α × List (Q × A)
  | _, .done a => (a, [])
  | n, .ask q k =>
      let run := exec oracle (n + 1) (k (oracle n q))
      (run.1, (q, oracle n q) :: run.2)

/-- Every run of the program ends in a result and a record that satisfy `post`. -/
def Always : Asks Q A α → (α → List (Q × A) → Prop) → Prop
  | .done a, post => post a []
  | .ask q k, post => ∀ answer, (k answer).Always fun a record => post a ((q, answer) :: record)

/-! ### The rules of `Always` -/

@[simp] theorem always_done {a : α} {post : α → List (Q × A) → Prop} :
    (done a).Always post ↔ post a [] := Iff.rfl

@[simp] theorem always_pure {a : α} {post : α → List (Q × A) → Prop} :
    (pure a : Asks Q A α).Always post ↔ post a [] := Iff.rfl

@[simp] theorem always_question {q : Q} {post : A → List (Q × A) → Prop} :
    (question q).Always post ↔ ∀ answer, post answer [(q, answer)] := Iff.rfl

theorem Always.mono {p : Asks Q A α} {post post' : α → List (Q × A) → Prop} (h : p.Always post)
    (himp : ∀ a record, post a record → post' a record) : p.Always post' := by
  induction p generalizing post post' with
  | done a => exact himp _ _ h
  | ask q k ih => exact fun answer => ih answer (h answer) fun a record => himp a _

theorem always_true (p : Asks Q A α) : p.Always fun _ _ => True := by
  induction p with
  | done a => trivial
  | ask q k ih => exact fun answer => ih answer

@[simp] theorem always_bind {p : Asks Q A α} {f : α → Asks Q A β} {post : β → List (Q × A) → Prop} :
    (p >>= f).Always post ↔
      p.Always fun a record => (f a).Always fun b record' => post b (record ++ record') := by
  induction p generalizing post with
  | done a => exact Iff.rfl
  | ask q k ih => exact forall_congr' fun answer => ih answer

theorem Always.and {p : Asks Q A α} {post post' : α → List (Q × A) → Prop} (h : p.Always post)
    (h' : p.Always post') : p.Always fun a record => post a record ∧ post' a record := by
  induction p generalizing post post' with
  | done a => exact ⟨h, h'⟩
  | ask q k ih => exact fun answer => ih answer (h answer) (h' answer)

/-- What holds of all that two programs ask holds of what they ask in sequence. -/
theorem Always.forall_bind {P : Q × A → Prop} {p : Asks Q A α} {f : α → Asks Q A β}
    (hp : p.Always fun _ record => ∀ e ∈ record, P e)
    (hf : ∀ a, (f a).Always fun _ record => ∀ e ∈ record, P e) :
    (p >>= f).Always fun _ record => ∀ e ∈ record, P e := by
  refine always_bind.mpr (hp.mono fun a record hrecord => ?_)
  exact (hf a).mono fun _ _ hrecord' => List.forall_mem_append.mpr ⟨hrecord, hrecord'⟩

theorem always_mapAsk {p : Asks Q A α} {f : Q → Q'} {post : α → List (Q' × A) → Prop} :
    (p.mapAsk f).Always post ↔
      p.Always fun a record => post a (record.map fun e => (f e.1, e.2)) := by
  induction p generalizing post with
  | done a => exact Iff.rfl
  | ask q k ih => exact forall_congr' fun answer => ih answer

/-- The invariant rule of a loop whose body asks questions: `P seen acc record` relates
the elements visited so far to the accumulator and to what was asked. -/
theorem always_foldlM {f : β → α → Asks Q A β} {l : List α} {b : β}
    (P : List α → β → List (Q × A) → Prop) (init : P [] b [])
    (step : ∀ seen a acc record, P seen acc record →
      (f acc a).Always fun acc' record' => P (seen ++ [a]) acc' (record ++ record')) :
    (l.foldlM f b).Always (P l) := by
  have main : ∀ (rest seen : List α) acc record, P seen acc record →
      (rest.foldlM f acc).Always fun acc' record' => P (seen ++ rest) acc' (record ++ record') := by
    intro rest
    induction rest with
    | nil =>
        intro seen acc record h
        simpa using h
    | cons a rest ih =>
        intro seen acc record h
        rw [List.foldlM_cons, always_bind]
        refine (step seen a acc record h).mono fun acc' record' h' => ?_
        have := ih (seen ++ [a]) acc' (record ++ record') h'
        simpa using this
  simpa using main l [] b [] init

/-! ### Runs -/

/-- What holds of every run holds of the run against an oracle. -/
theorem Always.exec {p : Asks Q A α} {post : α → List (Q × A) → Prop} (h : p.Always post)
    (oracle : Nat → Q → A) (n : Nat) : post (p.exec oracle n).1 (p.exec oracle n).2 := by
  induction p generalizing post n with
  | done a => exact h
  | ask q k ih => exact ih _ (h _) (n + 1)

/-- The answers of a run are the oracle's. -/
theorem answer_of_mem_exec {p : Asks Q A α} {oracle : Nat → Q → A} {n : Nat} {e : Q × A}
    (h : e ∈ (p.exec oracle n).2) : ∃ m, e.2 = oracle m e.1 := by
  induction p generalizing n with
  | done a => cases h
  | ask q k ih =>
      rcases List.mem_cons.mp h with rfl | hmem
      · exact ⟨n, rfl⟩
      · exact ih _ hmem

/-- The run of a sequence: the second program is run where the first one ends. -/
theorem exec_bind (p : Asks Q A α) (f : α → Asks Q A β) (oracle : Nat → Q → A) (n : Nat) :
    (p >>= f).exec oracle n =
      (((f (p.exec oracle n).1).exec oracle (n + (p.exec oracle n).2.length)).1,
        (p.exec oracle n).2 ++
          ((f (p.exec oracle n).1).exec oracle (n + (p.exec oracle n).2.length)).2) := by
  induction p generalizing n with
  | done a => rfl
  | ask q k ih =>
      have := ih (oracle n q) (n + 1)
      simp only [exec, List.length_cons, List.cons_append, Nat.add_right_comm n _ 1,
        ← Nat.add_assoc]
      exact congrArg (fun run => (run.1, (q, oracle n q) :: run.2)) this

/-- The run of a program whose questions are put in another form. -/
theorem exec_mapAsk (p : Asks Q A α) (f : Q → Q') (oracle : Nat → Q' → A) (n : Nat) :
    (p.mapAsk f).exec oracle n =
      ((p.exec (fun n q => oracle n (f q)) n).1,
        (p.exec (fun n q => oracle n (f q)) n).2.map fun e => (f e.1, e.2)) := by
  induction p generalizing n with
  | done a => rfl
  | ask q k ih =>
      have := ih (oracle n (f q)) (n + 1)
      simp only [exec, mapAsk, List.map_cons, this]

/-! ### A fixed oracle -/

section Fixed

variable (answer : Q → A)

/-- The result of a program whose questions are answered by a function. -/
def run : Asks Q A α → α
  | .done a => a
  | .ask q k => (k (answer q)).run

/-- The questions that the run puts, in order. -/
def asked : Asks Q A α → List Q
  | .done _ => []
  | .ask q k => q :: (k (answer q)).asked

@[simp] theorem run_pure (a : α) : (pure a : Asks Q A α).run answer = a := rfl

@[simp] theorem asked_pure (a : α) : (pure a : Asks Q A α).asked answer = [] := rfl

@[simp] theorem run_question (q : Q) : (question q : Asks Q A A).run answer = answer q := rfl

@[simp] theorem asked_question (q : Q) : (question q : Asks Q A A).asked answer = [q] := rfl

@[simp] theorem run_bind (p : Asks Q A α) (f : α → Asks Q A β) :
    (p >>= f).run answer = (f (p.run answer)).run answer := by
  induction p with
  | done a => rfl
  | ask q k ih => exact ih (answer q)

@[simp] theorem asked_bind (p : Asks Q A α) (f : α → Asks Q A β) :
    (p >>= f).asked answer = p.asked answer ++ (f (p.run answer)).asked answer := by
  induction p with
  | done a => rfl
  | ask q k ih => exact congrArg (q :: ·) (ih (answer q))

/-- A loop that collects what its body finds for each element. -/
def collect (f : α → Asks Q A (List β)) (l : List α) : Asks Q A (List β) :=
  l.foldlM (fun out a => do return out ++ (← f a)) []

@[simp] theorem run_anyM (p : α → Asks Q A Bool) (l : List α) :
    (l.anyM p).run answer = l.any fun a => (p a).run answer := by
  induction l with
  | nil => rfl
  | cons a l ih =>
      rw [List.anyM, run_bind, List.any_cons]
      cases (p a).run answer with
      | true => rfl
      | false => rw [ih, Bool.false_or]

theorem run_foldlM (f : β → α → Asks Q A β) (l : List α) (b : β) :
    (l.foldlM f b).run answer = l.foldl (fun acc a => (f acc a).run answer) b := by
  induction l generalizing b with
  | nil => rfl
  | cons a l ih => rw [List.foldlM_cons, run_bind, ih, List.foldl_cons]

@[simp] theorem run_collect (f : α → Asks Q A (List β)) (l : List α) :
    (collect f l).run answer = l.flatMap fun a => (f a).run answer := by
  have main (out : List β) :
      (l.foldlM (fun out a => do return out ++ (← f a)) out).run answer =
        out ++ l.flatMap fun a => (f a).run answer := by
    induction l generalizing out with
    | nil => simp
    | cons a l ih => simp [ih]
  exact main []

@[simp] theorem asked_collect (f : α → Asks Q A (List β)) (l : List α) :
    (collect f l).asked answer = l.flatMap fun a => (f a).asked answer := by
  have main (out : List β) :
      (l.foldlM (fun out a => do return out ++ (← f a)) out).asked answer =
        l.flatMap fun a => (f a).asked answer := by
    induction l generalizing out with
    | nil => simp
    | cons a l ih => simp [ih]
  exact main []

end Fixed

end Asks

end AutomatisedPipeline
