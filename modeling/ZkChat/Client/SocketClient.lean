import Mathlib.Data.List.Induction
import Mathlib.Data.List.Nodup
import Mathlib.Data.List.Perm.Subperm

set_option autoImplicit false

/-! # Connecting

The first call of `init` opens the three sockets and waits for them one after another: the listener
for the next one is registered when the one before has opened. A socket does not say that it has
opened before there was a listener. So the wait ends only if the sockets happen to open in the order
in which they are waited for, and otherwise never; later calls do not wait (`init_returns_iff`). -/

namespace ZkChat

/-! ## Waiting for events one after another -/

section

variable {α : Type} [DecidableEq α]

/-- The event ends the wait for it, if that is what is waited for. -/
def fire (e : α) : List α → List α
  | [] => []
  | awaited :: rest => if awaited = e then rest else awaited :: rest

/-- What is still waited for after the events. -/
def stillAwaited (awaited events : List α) : List α := events.foldl (fun w e => fire e w) awaited

@[simp] theorem stillAwaited_nil (events : List α) : stillAwaited [] events = [] := by
  induction events with
  | nil => rfl
  | cons e events ih => exact ih

theorem stillAwaited_append_singleton (awaited events : List α) (e : α) :
    stillAwaited awaited (events ++ [e]) = fire e (stillAwaited awaited events) := by
  simp [stillAwaited]

/-- The wait is over when all events have come, in this order. -/
theorem stillAwaited_eq_nil_iff {awaited events : List α} :
    stillAwaited awaited events = [] ↔ awaited.Sublist events := by
  induction events generalizing awaited with
  | nil => simp [stillAwaited]
  | cons e events ih =>
      cases awaited with
      | nil => simp
      | cons a rest =>
          show stillAwaited (fire e (a :: rest)) events = [] ↔ _
          rw [ih, fire]
          by_cases h : a = e
          · subst h
            simp
          · simp [h, List.sublist_cons_iff]

end

/-! ## The sockets -/

inductive ClientSocket where
  | messages_socket
  | message_broadcast_socket
  | updates_socket
deriving DecidableEq

/-- The sockets in the order of the waits. -/
def waitForConnections : List ClientSocket :=
  [.messages_socket, .message_broadcast_socket, .updates_socket]

/-- What `init` knows about the connection. For each call there are the sockets that it still has to
    wait for; its listener is registered on the first of them. -/
structure ConnectState where
  communication : Bool := false
  opened : List ClientSocket := []
  calls : List (List ClientSocket) := []
  sockets_connected : Bool := false
deriving DecidableEq

inductive ConnectEvent where
  | init
  | opens (socket : ClientSocket)

namespace ConnectState

/-- The call of `init` up to its wait: with a `communication` there is none. -/
def init (s : ConnectState) : ConnectState :=
  if s.communication then { s with calls := s.calls ++ [[]] }
  else { s with communication := true, calls := s.calls ++ [waitForConnections] }

/-- A socket that was made opens, once; a call whose last wait ends sets `sockets_connected`. -/
def opens (s : ConnectState) (socket : ClientSocket) : ConnectState :=
  if s.communication = true ∧ socket ∉ s.opened then
    { s with
      opened := s.opened ++ [socket]
      calls := s.calls.map (fire socket)
      sockets_connected := s.sockets_connected || s.calls.any (· = [socket]) }
  else s

def step (s : ConnectState) : ConnectEvent → ConnectState
  | .init => s.init
  | .opens socket => s.opens socket

end ConnectState

/-! ## Runs -/

/-- No call yet, or one that waits and others that do not. -/
structure Connecting (s : ConnectState) : Prop where
  nodup : s.opened.Nodup
  fresh : s.communication = false → s = {}
  calls : s.communication = true →
    ∃ k, s.calls = stillAwaited waitForConnections s.opened :: List.replicate k []
  connected : s.sockets_connected = true ↔
    s.communication = true ∧ stillAwaited waitForConnections s.opened = []

theorem fire_eq_nil_iff {α : Type} [DecidableEq α] {e : α} {w : List α} :
    fire e w = [] ↔ w = [] ∨ w = [e] := by
  cases w with
  | nil => simp [fire]
  | cons a rest =>
      by_cases h : a = e
      · simp [fire, h]
      · simp [fire, h]

theorem connecting_init : Connecting {} where
  nodup := .nil
  fresh _ := rfl
  calls h := by cases h
  connected := by simp

theorem Connecting.step {s : ConnectState} (h : Connecting s) (e : ConnectEvent) :
    Connecting (s.step e) := by
  cases e with
  | init =>
      show Connecting s.init
      unfold ConnectState.init
      split
      · next hcomm =>
          refine ⟨h.nodup, fun hno => ?_, fun _ => ?_, h.connected⟩
          · exact absurd (hno.symm.trans hcomm) (by decide)
          · obtain ⟨k, hk⟩ := h.calls hcomm
            exact ⟨k + 1, by simp [hk, List.replicate_succ']⟩
      · next hcomm =>
          obtain rfl := h.fresh (by simpa using hcomm)
          exact ⟨.nil, fun hno => absurd hno (by decide), fun _ => ⟨0, rfl⟩, by decide⟩
  | opens socket =>
      show Connecting (s.opens socket)
      unfold ConnectState.opens
      split
      · next hnew =>
          obtain ⟨hcomm, hsocket⟩ := hnew
          obtain ⟨k, hk⟩ := h.calls hcomm
          refine ⟨?_, fun hno => ?_, fun _ => ⟨k, ?_⟩, ?_⟩
          · refine List.nodup_append.mpr ⟨h.nodup, by simp, ?_⟩
            rintro a ha b hb rfl
            exact hsocket (List.mem_singleton.mp hb ▸ ha)
          · exact absurd (hno.symm.trans hcomm) (by decide)
          · simp [hk, stillAwaited_append_singleton, fire]
          · simp only [stillAwaited_append_singleton, fire_eq_nil_iff, Bool.or_eq_true,
              h.connected, hcomm, hk]
            simp
      · exact h

/-- The states after any events. -/
def connectRun (events : List ConnectEvent) : ConnectState := events.foldl ConnectState.step {}

theorem connecting_run (events : List ConnectEvent) : Connecting (connectRun events) := by
  induction events using List.reverseRecOn with
  | nil => exact connecting_init
  | append_singleton events e ih =>
      rw [connectRun, List.foldl_append]
      exact ih.step e

/-- After any events, the first call of `init` has come past the wait exactly if the sockets have
    opened in the one order, and each later call has, whatever the sockets do. -/
theorem init_returns_iff (events : List ConnectEvent) :
    (∀ i waiting, (connectRun events).calls[i]? = some waiting →
      (waiting = [] ↔ i ≠ 0 ∨ (connectRun events).opened = waitForConnections)) ∧
    ((connectRun events).sockets_connected = true ↔
      (connectRun events).opened = waitForConnections) := by
  have h := connecting_run events
  generalize connectRun events = s at h ⊢
  -- each socket opens once, so there is no room for another event in between
  have hover : stillAwaited waitForConnections s.opened = [] ↔ s.opened = waitForConnections := by
    rw [stillAwaited_eq_nil_iff]
    constructor
    · intro hsub
      have hall : s.opened ⊆ waitForConnections := fun socket _ => by cases socket <;> decide
      exact (hsub.eq_of_length_le (h.nodup.subperm hall).length_le).symm
    · rintro heq
      rw [heq]
  cases hcomm : s.communication with
  | false =>
      obtain rfl := h.fresh hcomm
      simp [waitForConnections]
  | true =>
      obtain ⟨k, hk⟩ := h.calls hcomm
      constructor
      · intro i waiting hi
        rw [hk] at hi
        cases i with
        | zero =>
            obtain rfl : stillAwaited waitForConnections s.opened = waiting := by simpa using hi
            simpa using hover
        | succ i =>
            obtain ⟨-, rfl⟩ : i < k ∧ [] = waiting := by
              simpa [List.getElem?_replicate] using hi
            simp
      · rw [h.connected, hover]
        simp [hcomm]

end ZkChat
