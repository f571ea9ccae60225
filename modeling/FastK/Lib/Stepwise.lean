import FastK.Lib.Journal
/-!
# Programs step by step

A program that reads the store and changes it in single steps (`Proc`), and the journaled program that it is when no
one else changes the store meanwhile (`Proc.denote`).  What such a program has done so far is a start of the steps of
the journaled one (`Runs.stopped`), and where it is done it is the whole of them (`Runs.done`).
-/
namespace Journal

/-- A program that reads the store or takes a durable step, and goes on. -/
inductive Proc (σ κ ε α : Type) where
  | done (r : Except ε α)
  | emit (k : κ) (next : Proc σ κ ε α)
  | look (next : σ → Proc σ κ ε α)

variable {σ κ ε α : Type} [Store σ κ]

/-- The program carried out with nothing in between. -/
def Proc.denote : Proc σ κ ε α → Prog σ κ ε α
  | .done r => fun _ => ([], r)
  | .emit k next => fun s => (k :: (next.denote (Store.apply k s)).1, (next.denote (Store.apply k s)).2)
  | .look next => fun s => (next s).denote s

/-- The program that takes the steps one after another and then answers. -/
def Proc.emits (ks : List κ) (r : Except ε α) : Proc σ κ ε α := ks.foldr .emit (.done r)

/-- A program that reads the store at its start and goes by what it read. -/
def Proc.ofProg (p : Prog σ κ ε α) : Proc σ κ ε α := .look (fun s => .emits (p.trace s) (p.result s))

/-- From `p` at the store `s` to `q` at the store `t`, with nothing in between. -/
inductive Runs (p : Proc σ κ ε α) (s : σ) : Proc σ κ ε α → σ → Prop
  | start : Runs p s p s
  | look {next : σ → Proc σ κ ε α} {t : σ} (h : Runs p s (.look next) t) : Runs p s (next t) t
  | emit {q : Proc σ κ ε α} {k : κ} {t : σ} (h : Runs p s (.emit k q) t) : Runs p s q (Store.apply k t)

variable {p q : Proc σ κ ε α} {s t : σ}

theorem Proc.denote_emits (ks : List κ) (r : Except ε α) (s : σ) :
    (Proc.emits ks r : Proc σ κ ε α).denote s = (ks, r) := by
  induction ks generalizing s with
  | nil => rfl
  | cons k ks ih => simp only [Proc.emits, List.foldr_cons, Proc.denote] at ih ⊢; rw [ih]

/-- Every journaled program is one that goes step by step. -/
@[simp] theorem Proc.denote_ofProg (p : Prog σ κ ε α) : (Proc.ofProg p).denote = p := by
  funext s
  exact Proc.denote_emits _ _ s

/-- **What is done and what is left make up the whole program.** -/
theorem Runs.split (h : Runs p s q t) : ∃ ks, t = exec ks s ∧ p.denote s = (ks ++ (q.denote t).1, (q.denote t).2) := by
  induction h with
  | start => exact ⟨[], rfl, rfl⟩
  | look _ ih => exact ih
  | @emit q k t _ ih =>
    obtain ⟨ks, ht, hp⟩ := ih
    refine ⟨ks ++ [k], by rw [ht, exec_append, exec_cons, exec_nil], ?_⟩
    rw [hp]
    simp [Proc.denote]

theorem Runs.stopped (h : Runs p s q t) : Stopped p.denote s t := by
  obtain ⟨ks, ht, hp⟩ := h.split
  exact ⟨ks, ⟨_, (congrArg Prod.fst hp).symm⟩, ht⟩

theorem Runs.done {r : Except ε α} (h : Runs p s (.done r) t) : t = p.denote.final s ∧ r = p.denote.result s := by
  obtain ⟨ks, ht, hp⟩ := h.split
  have hks : p.denote s = (ks, r) := by rw [hp, Proc.denote, List.append_nil]
  exact ⟨by rw [Prog.final_of_run hks, ht], (Prog.result_of_run hks).symm⟩

end Journal
