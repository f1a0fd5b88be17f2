import Mathlib.Data.List.Basic
import Mathlib.Logic.Function.Basic

/-! # `ProtobufDispatcher`

A message comes as a `MessagePtr`, which knows its descriptor; `CallbackT<T>` casts it to
`T` without looking.  `δ` are the descriptors, `μ d` the messages of the type `d`, and `α`
is what a callback does.

* `onProtobufMessage`: no value is a cast to the wrong type.
* `onProtobufMessage_registered`: that does not happen, whatever has been registered.
-/

namespace Netpp

abbrev MessagePtr (δ : Type) (μ : δ → Type) : Type := Σ d, μ d

/-- `CallbackT<T>`, with `T` erased. -/
abbrev CallbackT (δ : Type) (μ : δ → Type) (α : Type) : Type := Σ t, μ t → α

structure ProtobufDispatcher (δ : Type) (μ : δ → Type) (α : Type) where
  callbacks : δ → Option (CallbackT δ μ α) := fun _ => none
  defaultCallback : MessagePtr δ μ → α

namespace ProtobufDispatcher

variable {δ α : Type} {μ : δ → Type} [DecidableEq δ]

/-- `CallbackT<T>::onMessage`; `static_pointer_cast` to another type is undefined. -/
def onMessage (callback : CallbackT δ μ α) (message : MessagePtr δ μ) : Option α :=
  if h : message.1 = callback.1 then some (callback.2 (h ▸ message.2)) else none

def onProtobufMessage (s : ProtobufDispatcher δ μ α) (message : MessagePtr δ μ) : Option α :=
  match s.callbacks message.1 with
  | some callback => onMessage callback message
  | none => some (s.defaultCallback message)

def registerMessageCallback (s : ProtobufDispatcher δ μ α) (t : δ) (callback : μ t → α) :
    ProtobufDispatcher δ μ α :=
  { s with callbacks := Function.update s.callbacks t (some ⟨t, callback⟩) }

/-- Registrations, one after the other. -/
def register (s : ProtobufDispatcher δ μ α) (registrations : List (CallbackT δ μ α)) :
    ProtobufDispatcher δ μ α :=
  registrations.foldl (fun s r => s.registerMessageCallback r.1 r.2) s

/-- What stands under a descriptor is a callback for its type. -/
def Sound (s : ProtobufDispatcher δ μ α) : Prop :=
  ∀ d callback, s.callbacks d = some callback → callback.1 = d

variable {s : ProtobufDispatcher δ μ α}

@[simp] theorem callbacks_self (t : δ) (callback : μ t → α) :
    (s.registerMessageCallback t callback).callbacks t = some ⟨t, callback⟩ :=
  Function.update_self ..

theorem callbacks_other {d t : δ} (callback : μ t → α) (h : d ≠ t) :
    (s.registerMessageCallback t callback).callbacks d = s.callbacks d :=
  Function.update_of_ne h _ _

theorem Sound.registerMessageCallback (h : s.Sound) (t : δ) (callback : μ t → α) :
    (s.registerMessageCallback t callback).Sound := by
  intro d c hc
  by_cases hd : d = t
  · subst hd
    rw [callbacks_self] at hc
    cases hc
    rfl
  · rw [callbacks_other callback hd] at hc
    exact h d c hc

theorem Sound.register (h : s.Sound) (registrations : List (CallbackT δ μ α)) :
    (s.register registrations).Sound := by
  induction registrations generalizing s with
  | nil => exact h
  | cons r rs ih => exact ih (h.registerMessageCallback r.1 r.2)

theorem Sound.onProtobufMessage (h : s.Sound) (message : MessagePtr δ μ) :
    (s.onProtobufMessage message).isSome = true := by
  unfold ProtobufDispatcher.onProtobufMessage
  cases hcallback : s.callbacks message.1 with
  | none => rfl
  | some callback => simp [onMessage, h _ _ hcallback]

theorem callbacks_register {registrations : List (CallbackT δ μ α)} {t : δ}
    (hother : ∀ r ∈ registrations, r.1 ≠ t) : (s.register registrations).callbacks t = s.callbacks t := by
  induction registrations generalizing s with
  | nil => rfl
  | cons r rs ih =>
    have hne : t ≠ r.1 := (hother r (by simp)).symm
    exact (ih fun r' hr' => hother r' (by simp [hr'])).trans (callbacks_other r.2 hne)

/-- The callback that was registered last for the type of a message. -/
theorem onProtobufMessage_registered (before : List (CallbackT δ μ α))
    {after : List (CallbackT δ μ α)} {t : δ} (callback : μ t → α) (hlast : ∀ r ∈ after, r.1 ≠ t)
    (message : μ t) :
    (s.register (before ++ ⟨t, callback⟩ :: after)).onProtobufMessage ⟨t, message⟩ =
      some (callback message) := by
  have hfound : (s.register (before ++ ⟨t, callback⟩ :: after)).callbacks t =
      some ⟨t, callback⟩ := by
    rw [register, List.foldl_append, List.foldl_cons]
    exact (callbacks_register hlast).trans (callbacks_self t callback)
  simp only [onProtobufMessage, hfound, onMessage, dite_true]

/-- With no callback for its type a message goes to the default callback. -/
theorem onProtobufMessage_default {registrations : List (CallbackT δ μ α)} {t : δ}
    (hnew : s.callbacks t = none) (hother : ∀ r ∈ registrations, r.1 ≠ t) (message : μ t) :
    (s.register registrations).onProtobufMessage ⟨t, message⟩ =
      some (s.defaultCallback ⟨t, message⟩) := by
  have hnone : (s.register registrations).callbacks t = none :=
    (callbacks_register hother).trans hnew
  have hdefault : ∀ s : ProtobufDispatcher δ μ α,
      (s.register registrations).defaultCallback = s.defaultCallback := by
    clear hnone hother
    induction registrations with
    | nil => exact fun _ => rfl
    | cons r rs ih => exact fun s => (ih _).trans rfl
  simp only [onProtobufMessage, hnone, hdefault]

end ProtobufDispatcher

end Netpp
