import Mathlib.Data.List.Basic

/-!
# The life of one context

A context is described by tokens: where pointers to it lie, whether it is
registered, and whether it exists. A turn takes some tokens away and puts
others down. The turns are those of a connection that is accepted, reported by
epoll, read by pool threads, written by the event loop, perhaps evicted, and
closed once. What the tokens satisfy at all times says that no pointer to a
deleted context is followed.
-/

namespace SimpleFlow

/-- Armed in epoll; in the `events` array; in the hands of the event loop; in a
task, or in the hands of a pool thread that has not acted on its answer yet; in
the list of idle clients to be closed; in `close_and_release` after
`remove_client`; in the hands of a pool thread that has acted on its answer and
has `read_func` to end; in `_eclients`; in existence. -/
inductive Place where
  | armed
  | stored
  | atLoop
  | inHand
  | evictee
  | leaving
  | lingering
  | registered
  | live
  deriving DecidableEq

/-- The tokens of a context and whether its status is `CONTEXT_READING`. -/
structure Life where
  tokens : Place → ℕ
  reading : Bool

namespace Life

/-- The tokens `from` are taken away and the tokens `to` are put down. -/
def Moved (k l : Life) (before after : List Place) : Prop :=
  ∀ p, l.tokens p + before.count p = k.tokens p + after.count p

/-- What one step can do to one context. -/
inductive Turn (k l : Life) : Prop
  | rest (h : k.Moved l [] []) (hreading : l.reading = k.reading)
  | opened (hnew : k.tokens .live = 0) (h : k.Moved l [] [.atLoop, .registered, .live])
      (hreading : l.reading = false)
  | reported (hnone : k.tokens .evictee = 0) (h : k.Moved l [.armed] [.stored])
      (hreading : l.reading = k.reading)
  | skipped (h : k.Moved l [.stored] []) (hreading : l.reading = k.reading)
  | written (h : k.Moved l [.stored] [.atLoop]) (hreading : l.reading = k.reading)
  | refused (h : k.Moved l [.stored] [.atLoop]) (hreading : l.reading = true)
  | queued (h : k.Moved l [.stored] [.inHand]) (hreading : l.reading = true)
  | rearmed (h : k.Moved l [.atLoop] [.armed]) (hreading : l.reading = k.reading)
  | lost (h : k.Moved l [.atLoop] []) (hreading : l.reading = k.reading)
  | answered (h : k.Moved l [.inHand] [.lingering, .armed]) (hreading : l.reading = k.reading)
  | dropped (h : k.Moved l [.inHand] [.lingering]) (hreading : l.reading = k.reading)
  | finished (h : k.Moved l [.lingering] []) (hreading : l.reading = false)
  | idle (hquiet : k.reading = false) (hplaces : k.tokens .stored + k.tokens .atLoop +
      k.tokens .inHand + k.tokens .evictee = 0) (hregistered : k.tokens .registered = 1)
      (h : k.Moved l [] [.evictee]) (hreading : l.reading = k.reading)
  | closed (p : Place) (hp : p = .atLoop ∨ p = .inHand)
      (h : k.Moved l [p, .registered] [.leaving]) (hreading : l.reading = k.reading)
  | evicted (hnone : k.tokens .armed = 0) (h : k.Moved l [.evictee, .registered] [.leaving])
      (hreading : l.reading = k.reading)
  | disarmed (h : k.Moved l [.evictee, .registered, .armed] [.leaving])
      (hreading : l.reading = k.reading)
  | deleted (h : k.Moved l [.leaving, .live] []) (hreading : l.reading = false)

/-- A context that is waited for or that anyone is at work on is registered, and
it exists until `remove_client` and its deletion are both through. -/
structure Sound (k : Life) : Prop where
  armed : k.tokens .armed + k.tokens .stored + k.tokens .atLoop + k.tokens .inHand ≤
    k.tokens .registered
  evictee : k.tokens .stored + k.tokens .atLoop + k.tokens .inHand + k.tokens .evictee ≤
    k.tokens .registered
  live : k.tokens .registered + k.tokens .leaving = k.tokens .live
  one : k.tokens .live ≤ 1

/-- A context that a thread lingers on is registered too, and in the hands of
no one else. -/
structure Calm (k : Life) : Prop where
  reading : 0 < k.tokens .inHand + k.tokens .lingering → k.reading = true
  alone : k.tokens .lingering + k.tokens .atLoop + k.tokens .inHand + k.tokens .evictee ≤
    k.tokens .registered

variable {k l : Life}

theorem Moved.all {before after : List Place} (h : k.Moved l before after) :
    (l.tokens .armed + before.count .armed = k.tokens .armed + after.count .armed ∧
      l.tokens .stored + before.count .stored = k.tokens .stored + after.count .stored ∧
      l.tokens .atLoop + before.count .atLoop = k.tokens .atLoop + after.count .atLoop) ∧
    (l.tokens .inHand + before.count .inHand = k.tokens .inHand + after.count .inHand ∧
      l.tokens .evictee + before.count .evictee = k.tokens .evictee + after.count .evictee ∧
      l.tokens .leaving + before.count .leaving = k.tokens .leaving + after.count .leaving) ∧
    l.tokens .lingering + before.count .lingering = k.tokens .lingering + after.count .lingering ∧
      l.tokens .registered + before.count .registered =
        k.tokens .registered + after.count .registered ∧
      l.tokens .live + before.count .live = k.tokens .live + after.count .live :=
  ⟨⟨h .armed, h .stored, h .atLoop⟩, ⟨h .inHand, h .evictee, h .leaving⟩, h .lingering,
    h .registered, h .live⟩

theorem Sound.turn (h : k.Sound) (hturn : k.Turn l) : l.Sound := by
  obtain ⟨harmed, hevictee, hlive, hone⟩ := h
  cases hturn with
  | closed p hp h =>
      have hall := h.all
      rcases hp with rfl | rfl <;> simp at hall <;> constructor <;> omega
  | rest h | opened _ h | reported _ h | skipped h | written h | refused h | queued h | rearmed h
  | lost h | answered h | dropped h | finished h | idle _ _ _ h | evicted _ h | disarmed h
  | deleted h =>
      have hall := h.all
      simp at hall
      constructor <;> omega

/-- The context stays in the hands of one if it is not dispatched while a
thread lingers on it. -/
theorem Calm.turn (h : k.Calm) (hsound : k.Sound) (hturn : k.Turn l)
    (hdispatch : 0 < k.tokens .lingering → k.tokens .stored ≤ l.tokens .stored) : l.Calm := by
  obtain ⟨harmed, hevictee, hlive, hone⟩ := hsound
  obtain ⟨hreads, halone⟩ := h
  cases hturn with
  | closed p hp h hreading =>
      have hall := h.all
      rcases hp with rfl | rfl <;> simp at hall <;>
        exact ⟨fun hpos ↦ hreading.trans (hreads (by omega)), by omega⟩
  | opened _ h hreading | deleted h hreading | finished h hreading =>
      have hall := h.all
      simp at hall
      exact ⟨fun hpos ↦ by omega, by omega⟩
  | refused h hreading | queued h hreading =>
      have hall := h.all
      simp at hall
      exact ⟨fun _ ↦ hreading, by omega⟩
  | rest h hreading | reported _ h hreading | skipped h hreading | written h hreading
  | rearmed h hreading | lost h hreading | answered h hreading | dropped h hreading
  | evicted _ h hreading | disarmed h hreading =>
      have hall := h.all
      simp at hall
      exact ⟨fun hpos ↦ hreading.trans (hreads (by omega)), by omega⟩
  | idle hquiet hplaces hregistered h hreading =>
      have hall := h.all
      have hnone : ¬0 < k.tokens .inHand + k.tokens .lingering := by
        intro hpos
        rw [hreads hpos] at hquiet
        cases hquiet
      simp at hall
      exact ⟨fun hpos ↦ hreading.trans (hreads (by omega)), by omega⟩

end Life

end SimpleFlow
