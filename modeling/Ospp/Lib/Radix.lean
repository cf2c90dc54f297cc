import Mathlib.Data.List.Basic

/-!
# Walks through tables

Each entry of a table may name a further table, and a path of indices leads from one table to
another. Through an entry that names the table it stands in a walk stays where it is
(`walk_replicate`): a path with such indices in front reaches what the rest of it reaches, so the
tables on the way can be reached like what lies behind them.
-/

namespace Radix

variable {T I : Type*} {t : T}

/-- The table at the end of a path. -/
def walk (next : T → I → Option T) (t : T) (path : List I) : Option T := path.foldlM next t

theorem walk_cons (next : T → I → Option T) (t : T) (i : I) (path : List I) :
    walk next t (i :: path) = (next t i).bind fun u => walk next u path := rfl

theorem walk_singleton (next : T → I → Option T) (t : T) (i : I) : walk next t [i] = next t i := by
  rw [walk_cons]
  cases next t i with
  | none => rfl
  | some u => rfl

/-- A walk stays in a table that names itself. -/
theorem walk_replicate {next : T → I → Option T} {r : I} (h : next t r = some t) (k : ℕ)
    (path : List I) : walk next t (List.replicate k r ++ path) = walk next t path := by
  induction k with
  | zero => rfl
  | succ k ih => rw [List.replicate_succ, List.cons_append, walk_cons, h, Option.bind_some, ih]

end Radix
