import Mathlib.Data.List.Infix
import Mathlib.Tactic.Common

/-! # Question and answer

Two sides with a channel each way, which loses and reorders nothing.  One side asks, and asks
again when it has got an answer; the other answers what it receives by `respond`, one after
the other.

* `Dialogue`: what has been asked, received, answered and got, at any time.
* `last_question`, `last_answer`: each channel has at most one message in it.
* `got_answers`: the answers belong to the questions.
-/

variable {α β : Type} {respond : α → β} {asked received : List α} {answered got : List β}

structure Dialogue (respond : α → β) (asked received : List α) (answered got : List β) : Prop where
  receives : received <+: asked
  answers : answered <+: received.map respond
  gets : got <+: answered
  turn : asked.length ≤ got.length + 1

namespace Dialogue

theorem nil : Dialogue respond [] [] [] [] :=
  ⟨List.prefix_rfl, List.prefix_rfl, List.prefix_rfl, Nat.zero_le _⟩

/-- The answers got are those to the questions asked, in order. -/
theorem got_answers (h : Dialogue respond asked received answered got) :
    got <+: asked.map respond :=
  (h.gets.trans h.answers).trans (h.receives.map respond)

theorem last_question {x : α} {rest : List α} (h : Dialogue respond asked received answered got)
    (hasked : asked = received ++ x :: rest) : rest = [] := by
  have hanswered := h.answers.length_le
  have hgot := h.gets.length_le
  have hturn := h.turn
  rw [List.length_map] at hanswered
  rw [hasked, List.length_append, List.length_cons] at hturn
  exact List.length_eq_zero_iff.mp (by omega)

theorem last_answer {y : β} {rest : List β} (h : Dialogue respond asked received answered got)
    (hanswered : answered = got ++ y :: rest) : rest = [] := by
  have hreceived := h.receives.length_le
  have hlength := h.answers.length_le
  have hturn := h.turn
  rw [List.length_map] at hlength
  rw [hanswered, List.length_append, List.length_cons] at hlength
  exact List.length_eq_zero_iff.mp (by omega)

theorem ask {first : List α} (h : Dialogue respond [] received answered got)
    (hone : first.length ≤ 1) : Dialogue respond first received answered got :=
  ⟨h.receives.trans List.nil_prefix, h.answers, h.gets, Nat.le_add_left_of_le hone⟩

theorem receive {x : α} {reply : List β} (h : Dialogue respond asked received answered got)
    (hreceived : received ++ [x] <+: asked)
    (hreply : reply = [] ∨ reply = [respond x] ∧ answered = received.map respond) :
    Dialogue respond asked (received ++ [x]) (answered ++ reply) got := by
  refine ⟨hreceived, ?_, h.gets.trans (List.prefix_append ..), h.turn⟩
  rw [List.map_append]
  cases hreply with
  | inl hnone =>
    rw [hnone, List.append_nil]
    exact h.answers.trans (List.prefix_append ..)
  | inr hall =>
    rw [hall.1, hall.2]
    exact List.prefix_rfl

theorem get {y : β} {next : List α} (h : Dialogue respond asked received answered got)
    (hgot : got ++ [y] <+: answered) (hone : next.length ≤ 1) :
    Dialogue respond (asked ++ next) received answered (got ++ [y]) := by
  refine ⟨h.receives.trans (List.prefix_append ..), h.answers, hgot, ?_⟩
  have hturn := h.turn
  rw [List.length_append, List.length_append, List.length_singleton]
  omega

end Dialogue
