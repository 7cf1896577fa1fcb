import BearerAuth.Grant.Pool
import Mathlib.Data.List.Nodup

/-!
# The pool and its queue

The pool and its queue are `InStep` when the queue has the keys of the lines, in their
order and none of them twice.  Then the queue is all that making room needs to look at:
it takes equally many off the front of both (`makeRoom_eq`), as many as leave room for one
more line, and filing a key that is not in the pool keeps the two in step
(`InStep.file`).
-/

namespace BearerAuth

namespace Pool

/-! ## Lines -/

section

variable {capacity : Nat} {queue : List Bytes} {pool : Pool} {key : Bytes} {line : Line}
  {entry : Bytes × Line}

theorem makeRoom_sublist (capacity : Nat) (queue : List Bytes) (pool : Pool) :
    (makeRoom capacity queue pool).2.Sublist pool := by
  induction queue generalizing pool with
  | nil => exact .refl pool
  | cons oldest queue ih =>
      rw [makeRoom]
      split
      · exact (ih (pool.remove oldest)).trans List.filter_sublist
      · exact .refl pool

theorem mem_insert (h : entry ∈ (makeRoom capacity queue pool).2.insert key line) :
    entry ∈ pool ∨ entry = (key, line) := by
  rcases List.mem_append.mp h with hold | hnew
  · exact .inl ((makeRoom_sublist capacity queue pool).subset hold)
  · exact .inr (List.mem_singleton.mp hnew)

theorem find?_eq_none : pool.find? key = none ↔ key ∉ pool.map Prod.fst := by
  induction pool with
  | nil => simp [find?]
  | cons entry rest ih =>
      by_cases heq : entry.1 = key
      · simp [find?, heq]
      · simp [find?, heq, Ne.symm heq, ih]

end

/-! ## Pool and queue in step -/

/-- The queue has the keys of the lines, in their order and none of them twice. -/
structure InStep (queue : List Bytes) (pool : Pool) : Prop where
  keys : pool.map Prod.fst = queue
  nodup : queue.Nodup

section

variable {capacity : Nat} {queue : List Bytes} {pool : Pool} {key : Bytes}

theorem InStep.length_eq (h : InStep queue pool) : pool.length = queue.length := by
  rw [← h.keys, List.length_map]

theorem InStep.drop (h : InStep queue pool) (n : Nat) : InStep (queue.drop n) (pool.drop n) where
  keys := by rw [List.map_drop, h.keys]
  nodup := h.nodup.sublist (List.drop_sublist n queue)

theorem InStep.remove_oldest {oldest : Bytes} (h : InStep (oldest :: queue) pool) :
    pool.remove oldest = pool.drop 1 := by
  cases pool with
  | nil => cases h.keys
  | cons entry rest =>
      obtain ⟨rfl, hrest⟩ := List.cons.inj h.keys
      have hkept : ∀ other ∈ rest, other.1 ≠ entry.1 := by
        intro other hother heq
        refine (List.nodup_cons.mp h.nodup).1 ?_
        rw [← hrest, ← heq]
        exact List.mem_map_of_mem hother
      rw [remove, List.filter_cons_of_neg (by simp)]
      exact List.filter_eq_self.mpr fun other hother => by simpa using hkept other hother

theorem makeRoom_eq (h : InStep queue pool) :
    makeRoom capacity queue pool =
      (queue.drop (queue.length + 1 - max capacity 1),
        pool.drop (queue.length + 1 - max capacity 1)) := by
  induction queue generalizing pool with
  | nil =>
      have hpool : pool = [] := List.eq_nil_of_length_eq_zero h.length_eq
      simp [makeRoom, hpool]
  | cons oldest queue ih =>
      have hlength : pool.length = queue.length + 1 := h.length_eq
      rw [makeRoom]
      split
      · next hfull =>
          have hroom : (oldest :: queue).length + 1 - max capacity 1 =
              queue.length + 1 - max capacity 1 + 1 := by
            rw [List.length_cons]
            omega
          rw [h.remove_oldest, ih (h.drop 1), hroom, List.drop_drop, List.drop_succ_cons,
            Nat.add_comm 1]
      · next hroom =>
          rw [show (oldest :: queue).length + 1 - max capacity 1 = 0 by
            rw [List.length_cons]; omega, List.drop_zero, List.drop_zero]

/-- To file a new key keeps pool and queue in step. -/
theorem InStep.file (h : InStep queue pool) (hnew : pool.find? key = none) (capacity : Nat)
    (line : Line) :
    InStep ((makeRoom capacity queue pool).1 ++ [key])
      ((makeRoom capacity queue pool).2.insert key line) := by
  have hroom := h.drop (queue.length + 1 - max capacity 1)
  have habsent : key ∉ queue := h.keys ▸ find?_eq_none.mp hnew
  rw [makeRoom_eq h]
  refine ⟨by rw [insert, List.map_append, hroom.keys]; rfl, ?_⟩
  refine List.nodup_append.mpr ⟨hroom.nodup, List.nodup_singleton key, ?_⟩
  intro filed hfiled new hin heq
  obtain rfl := List.mem_singleton.mp hin
  exact habsent (heq ▸ List.mem_of_mem_drop hfiled)

end

end Pool

end BearerAuth
