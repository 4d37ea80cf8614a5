/-
  Programs over reference-counted pages.

  A program is a tree of primitive operations: take a page off the free list, set its count,
  drop or add a reference, put it back, read it, write it. `Prog.run` executes it.
-/
import Mathlib

namespace Xv6.Lib

open Function

variable {D ε α β : Type}

/-- Programs that return an `α`, fail with an `ε`, and work on pages with contents in `D`. -/
inductive Prog (D ε α : Type) : Type
  | ret (a : α)
  | fail (e : ε)
  /-- Take the first page off the free list, if there is one. -/
  | pop (k : Option ℕ → Prog D ε α)
  /-- Set the count of a page to 1. -/
  | init (p : ℕ) (k : Prog D ε α)
  /-- Drop a reference and learn the new count. -/
  | drop (p : ℕ) (k : ℕ → Prog D ε α)
  /-- Add a reference. -/
  | grab (p : ℕ) (k : Prog D ε α)
  /-- Put a page on the free list. -/
  | push (p : ℕ) (k : Prog D ε α)
  | read (p : ℕ) (k : D → Prog D ε α)
  | write (p : ℕ) (d : D) (k : Prog D ε α)

namespace Prog

def bind : Prog D ε α → (α → Prog D ε β) → Prog D ε β
  | .ret a, f => f a
  | .fail e, _ => .fail e
  | .pop k, f => .pop fun r => (k r).bind f
  | .init p k, f => .init p (k.bind f)
  | .drop p k, f => .drop p fun c => (k c).bind f
  | .grab p k, f => .grab p (k.bind f)
  | .push p k, f => .push p (k.bind f)
  | .read p k, f => .read p fun d => (k d).bind f
  | .write p d k, f => .write p d (k.bind f)

instance : Monad (Prog D ε) where
  pure := .ret
  bind := .bind

/-- `f i`, `f (i + 1)`, .., `n` of them, one after the other. -/
def times (f : ℕ → Prog D ε Unit) : ℕ → ℕ → Prog D ε Unit
  | 0, _ => .ret ()
  | n + 1, i => (f i).bind fun _ => times f n (i + 1)

@[simp] theorem pure_eq (a : α) : (pure a : Prog D ε α) = .ret a := rfl

@[simp] theorem bind_eq (m : Prog D ε α) (f : α → Prog D ε β) : m >>= f = m.bind f := rfl

theorem bind_ret (m : Prog D ε α) : m.bind .ret = m := by
  induction m with
  | ret | fail => rfl
  | _ => simp only [bind, *]

end Prog

/-- The free list, the counts and the contents of all pages. -/
structure Store (D : Type) where
  count : ℕ → ℤ
  free : List ℕ
  data : ℕ → D

/-- The new count after a reference is dropped. A count that is not positive is taken for 1. -/
def dropped (c : ℤ) : ℤ :=
  (if c ≤ 0 then 1 else c) - 1

theorem dropped_of_pos {c : ℤ} (h : 0 < c) : dropped c = c - 1 := by
  unfold dropped
  rw [if_neg (by omega)]

namespace Prog

def run : Prog D ε α → Store D → Except ε α × Store D
  | .ret a, s => (.ok a, s)
  | .fail e, s => (.error e, s)
  | .pop k, s =>
    match s.free with
    | [] => (k none).run s
    | p :: free => (k (some p)).run { s with free := free }
  | .init p k, s => k.run { s with count := update s.count p 1 }
  | .drop p k, s =>
    (k (dropped (s.count p)).toNat).run
      { s with count := update s.count p (dropped (s.count p)) }
  | .grab p k, s => k.run { s with count := update s.count p (s.count p + 1) }
  | .push p k, s => k.run { s with free := p :: s.free }
  | .read p k, s => (k (s.data p)).run s
  | .write p d k, s => k.run { s with data := update s.data p d }

end Prog

end Xv6.Lib
