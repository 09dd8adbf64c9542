import Mathlib.Logic.Function.Basic

/-! # Tables

Kernel memory, `thrtab` and byte buffers are tables, updated one entry at a
time by `store`.
-/

namespace OsKernel

/-- The table `f` after storing `v` at `a`.  This is `Function.update` without
the dependent cast, so that evaluating a run does not unfold casts. -/
def store {α β : Type} [DecidableEq α] (f : α → β) (a : α) (v : β) : α → β :=
  fun x => if x = a then v else f x

section Store

variable {α β : Type} [DecidableEq α] (f : α → β) (a : α) (v : β)

@[simp] theorem store_same : store f a v a = v := if_pos rfl

@[simp] theorem store_of_ne {x : α} (h : x ≠ a) : store f a v x = f x := if_neg h

theorem store_apply (x : α) : store f a v x = if x = a then v else f x := rfl

@[simp] theorem store_store_same (w : β) : store (store f a v) a w = store f a w :=
  funext fun x => by simp only [store_apply]; split <;> rfl

end Store

end OsKernel
