import SimpleFlow.Library.LabelledSystem
import Mathlib.Data.List.Perm.Basic

/-!
# A queue served by several hands

Items are pushed at the end of a queue, and a free hand takes the first one,
holds it, and finishes it. Whatever the order of the steps, the items are taken
in the order in which they were pushed, and each is in one place: in the queue,
in one hand, or finished.
-/

/-- `pushed`, `taken` and `finished` record what has happened. -/
structure WorkQueue (α : Type*) where
  queue : List α
  hands : List (Option α)
  pushed : List α
  taken : List α
  finished : List α

namespace WorkQueue

variable {α : Type*}

/-- A hand joins, an item is pushed, a free hand takes one or finishes its own. -/
inductive Act (α : Type*) where
  | hire
  | push (a : α)
  | take (w : ℕ)
  | finish (w : ℕ)

def step (q : WorkQueue α) : Act α → Option (WorkQueue α)
  | .hire => some { q with hands := q.hands ++ [none] }
  | .push a => some { q with queue := q.queue ++ [a], pushed := q.pushed ++ [a] }
  | .take w =>
      match q.hands[w]?, q.queue with
      | some none, a :: rest =>
          some { q with queue := rest, hands := q.hands.set w (some a), taken := q.taken ++ [a] }
      | _, _ => none
  | .finish w =>
      match q.hands[w]? with
      | some (some a) =>
          some { q with hands := q.hands.set w none, finished := q.finished ++ [a] }
      | _ => none

def system (α : Type*) : LabelledSystem (WorkQueue α) (Act α) := ⟨step⟩

def start (hands : ℕ) : WorkQueue α := ⟨[], List.replicate hands none, [], [], []⟩

/-- The items that are held. -/
def held (q : WorkQueue α) : List α := q.hands.filterMap id

/-- Nothing is lost, taken twice or out of order. -/
structure Kept (q : WorkQueue α) : Prop where
  order : q.pushed = q.taken ++ q.queue
  place : q.taken.Perm (q.finished ++ q.held)

theorem filterMap_set_some {hands : List (Option α)} {w : ℕ} (h : hands[w]? = some none) (a : α) :
    ((hands.set w (some a)).filterMap id).Perm (a :: hands.filterMap id) := by
  induction hands generalizing w with
  | nil => simp at h
  | cons x hands ih =>
      cases w with
      | zero =>
          obtain rfl : x = none := by simpa using h
          simp
      | succ w =>
          have hrest := ih (w := w) (by simpa using h)
          cases x with
          | none => simpa using hrest
          | some b =>
              simp only [List.set_cons_succ, List.filterMap_cons, id_eq]
              exact (hrest.cons b).trans (List.Perm.swap a b _)

theorem filterMap_set_none {hands : List (Option α)} {w : ℕ} {a : α}
    (h : hands[w]? = some (some a)) :
    (hands.filterMap id).Perm (a :: (hands.set w none).filterMap id) := by
  induction hands generalizing w with
  | nil => simp at h
  | cons x hands ih =>
      cases w with
      | zero =>
          obtain rfl : x = some a := by simpa using h
          simp
      | succ w =>
          have hrest := ih (w := w) (by simpa using h)
          cases x with
          | none => simpa using hrest
          | some b =>
              simp only [List.set_cons_succ, List.filterMap_cons, id_eq]
              exact (hrest.cons b).trans (List.Perm.swap a b _)

theorem Kept.start (hands : ℕ) : (WorkQueue.start hands : WorkQueue α).Kept := by
  constructor <;> simp [WorkQueue.start, held]

theorem Kept.step {q r : WorkQueue α} {a : Act α} (h : q.Kept)
    (hstep : (system α).step q a = some r) : r.Kept := by
  cases a with
  | hire =>
      obtain rfl := Option.some.inj hstep
      exact ⟨h.order, by simpa [held] using h.place⟩
  | push a =>
      obtain rfl := Option.some.inj hstep
      exact ⟨by simp [h.order], h.place⟩
  | take w =>
      simp only [system, WorkQueue.step] at hstep
      split at hstep
      · rename_i a rest hw hqueue
        obtain rfl := Option.some.inj hstep
        refine ⟨by simp [h.order, hqueue], ?_⟩
        have hset := filterMap_set_some hw a
        calc (q.taken ++ [a]).Perm (a :: q.taken) := List.perm_append_singleton a q.taken
          _ |>.Perm (a :: (q.finished ++ q.held)) := h.place.cons a
          _ |>.Perm (q.finished ++ a :: q.held) := List.perm_middle.symm
          _ |>.Perm _ := hset.symm.append_left q.finished
      · cases hstep
  | finish w =>
      simp only [system, WorkQueue.step] at hstep
      split at hstep
      · rename_i a hw
        obtain rfl := Option.some.inj hstep
        refine ⟨h.order, ?_⟩
        have hset := filterMap_set_none hw
        have hplace := h.place.trans (hset.append_left q.finished)
        simpa [held] using hplace
      · cases hstep

theorem kept_of_exec {hands : ℕ} {as : List (Act α)} {q : WorkQueue α}
    (h : (system α).exec (start hands) as = some q) : q.Kept :=
  LabelledSystem.exec_invariant (fun _ _ _ h hstep ↦ h.step hstep) (.start hands) h

end WorkQueue
