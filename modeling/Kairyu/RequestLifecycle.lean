/-
  Kairyu/RequestLifecycle.lean
  ============================
  **The life of one asynchronous request.**

  Everything the store has about one identifier is a `Row`, and every operation changes each
  row by a sequence of `Move`s.  A move leaves events in the history of the request: a claim
  was issued, the request was deferred, the request came to its end.  `Kept` is what a row
  and its history have in common after any sequence of moves.
-/
import Kairyu.AsyncRequests

namespace Kairyu

open List AsyncRequestState

/-! ### Histories and rows -/

/-- What the store has about one identifier. -/
structure AsyncRequest.Row where
  request : Option AsyncRequest := none
  lease : Option Lease := none
  token : Option Nat := none
  expirations : Option Nat := none

/-- What happened to a request, newest first in a history. -/
inductive RequestEvent where
  | issued (workerId : Text) (fencingToken : Nat)
  | deferred
  | ended (state : AsyncRequestState)
deriving DecidableEq

namespace RequestEvent

def isIssue : RequestEvent → Bool
  | issued _ _ => true
  | _ => false

def isDefer : RequestEvent → Bool
  | deferred => true
  | _ => false

def token : RequestEvent → Option Nat
  | issued _ token => some token
  | _ => none

def ending : RequestEvent → Option AsyncRequestState
  | ended state => some state
  | _ => none

end RequestEvent

open RequestEvent (issued deferred ended)

/-- A result in `succeeded` and an error in `failed`, and nowhere else. -/
def AsyncRequest.Payload (r : AsyncRequest) : Prop :=
  (r.result.isSome = true ↔ r.state = .succeeded) ∧ (r.error.isSome = true ↔ r.state = .failed)

/-- A request that is not over has no payload. -/
theorem AsyncRequest.Payload.clear {r : AsyncRequest} (h : r.Payload) (hopen : r.state.terminal = false) :
    r.result = none ∧ r.error = none := by
  constructor
  · apply Option.not_isSome_iff_eq_none.mp
    intro hsome
    rw [h.1.mp hsome] at hopen
    cases hopen
  · apply Option.not_isSome_iff_eq_none.mp
    intro hsome
    rw [h.2.mp hsome] at hopen
    cases hopen

theorem AsyncRequest.Payload.of_clear {r : AsyncRequest} (hclear : r.result = none ∧ r.error = none)
    (hsucceeded : r.state ≠ .succeeded) (hfailed : r.state ≠ .failed) : r.Payload := by
  unfold AsyncRequest.Payload
  rw [hclear.1, hclear.2]
  exact ⟨iff_of_false Bool.false_ne_true hsucceeded, iff_of_false Bool.false_ne_true hfailed⟩

namespace AsyncRequestState

theorem terminal_of_held {state : AsyncRequestState} (h : state.held = true) : state.terminal = false := by
  cases state <;> first | rfl | cases h

theorem held_of_terminal {state : AsyncRequestState} (h : state.terminal = true) : state.held = false := by
  cases state <;> first | rfl | cases h

end AsyncRequestState

/-! ### Moves -/

namespace AsyncRequest

/-- One change of a row, with the events it leaves. -/
inductive Move (maximum : Nat) (id : Text) : Row → List RequestEvent → Row → Prop
  /-- A submission of a new identifier. -/
  | create {r : AsyncRequest} (hid : r.id = id) (hattempt : r.attempt = 0) (hstate : r.state = .queued)
      (hpayload : r.Payload) : Move maximum id {} [] { request := some r, token := some 0 }
  /-- A submission after its own deadline. -/
  | stillborn {r : AsyncRequest} (hid : r.id = id) (hattempt : r.attempt = 0) (hstate : r.state = .expired)
      (hpayload : r.Payload) : Move maximum id {} [ended .expired] { request := some r, token := some 0 }
  /-- The request comes to its end; its claims may be fenced off. -/
  | settle {row : Row} {r : AsyncRequest} (r' : AsyncRequest) {token : Option Nat} (hr : row.request = some r)
      (hopen : r.state.terminal = false) (hid : r'.id = r.id) (hattempt : r'.attempt = r.attempt)
      (hover : r'.state.terminal = true) (hpayload : r'.Payload)
      (htoken : token = row.token ∨ token = row.token.map (· + 1)) :
      Move maximum id row [ended r'.state] { row with request := some r', lease := none, token }
  /-- A lease that passed is counted. -/
  | lose {row : Row} {r : AsyncRequest} (hr : row.request = some r) :
      Move maximum id row [] { row with expirations := some (row.expirations.getD 0 + 1) }
  /-- A worker is given a queued request. -/
  | claim {row : Row} {r : AsyncRequest} {token : Nat} {lease : Lease} {now : Instant} (hr : row.request = some r)
      (hqueued : r.state = .queued) (htoken : row.token = some token) (hlease : lease.fencingToken = token + 1) :
      Move maximum id row [issued lease.workerId lease.fencingToken]
        { row with
          request := some { r with state := .claimed, attempt := r.attempt + 1, updatedAt := now }
          lease := some lease
          token := some (token + 1) }
  /-- A worker is given a request that another one lost. -/
  | reclaim {row : Row} {r : AsyncRequest} {token : Nat} {lease : Lease} {now : Instant} (hr : row.request = some r)
      (hheld : r.state.held = true) (htoken : row.token = some token) (hlease : lease.fencingToken = token + 1)
      (hbound : row.expirations.getD 0 + 1 < maximum) :
      Move maximum id row [issued lease.workerId lease.fencingToken]
        { request := some { r with state := .claimed, attempt := r.attempt + 1, updatedAt := now }
          lease := some lease
          token := some (token + 1)
          expirations := some (row.expirations.getD 0 + 1) }
  /-- The lease is given another end. -/
  | renew {row : Row} {r : AsyncRequest} {lease : Lease} {leaseUntil : Instant} (hr : row.request = some r)
      (hlease : row.lease = some lease) : Move maximum id row [] { row with lease := some { lease with leaseUntil } }
  /-- The worker starts. -/
  | run {row : Row} {r : AsyncRequest} {now : Instant} (hr : row.request = some r) (hclaimed : r.state = .claimed) :
      Move maximum id row [] { row with request := some { r with state := .running, updatedAt := now } }
  /-- The worker gives the request back. -/
  | defer {row : Row} {r : AsyncRequest} {now : Instant} (hr : row.request = some r) (hheld : r.state.held = true) :
      Move maximum id row [deferred]
        { row with
          request := some { r with state := .queued, updatedAt := now }
          lease := none
          token := row.token.map (· + 1) }

/-- A sequence of moves; the newest event comes first. -/
inductive Moves (maximum : Nat) (id : Text) : Row → List RequestEvent → Row → Prop
  | refl (row : Row) : Moves maximum id row [] row
  | tail {a b c : Row} {before after : List RequestEvent} (h : Moves maximum id a before b)
      (hmove : Move maximum id b after c) : Moves maximum id a (after ++ before) c

namespace Moves

variable {maximum : Nat} {id : Text} {a b c : Row} {before after : List RequestEvent}

theorem of_move (h : Move maximum id a after b) : Moves maximum id a after b := by
  have hone := tail (refl a) h
  rwa [append_nil] at hone

theorem trans (h : Moves maximum id a before b) (h' : Moves maximum id b after c) :
    Moves maximum id a (after ++ before) c := by
  induction h' with
  | refl => exact h
  | tail _ hmove ih =>
    rw [append_assoc]
    exact tail ih hmove

end Moves

/-! ### What moves keep -/

/-- A row with a request, and the history of that request. -/
structure Ticket (maximum : Nat) (id : Text) (r : AsyncRequest) (row : Row) (history : List RequestEvent) : Prop where
  id : r.id = id
  token : ∃ token, row.token = some token ∧ ∀ n ∈ history.filterMap RequestEvent.token, n ≤ token
  /-- Every claim has a larger token than the claims before it. -/
  fenced : (history.filterMap RequestEvent.token).Pairwise (· > ·)
  payload : r.Payload
  leased : r.state.held = row.lease.isSome
  /-- Nothing happened since the claim of the lease was issued. -/
  latest : ∀ lease, row.lease = some lease → history.head? = some (issued lease.workerId lease.fencingToken)
  endings : history.filterMap RequestEvent.ending = if r.state.terminal = true then [r.state] else []
  last : r.state.terminal = true → history.head? = some (ended r.state)
  attempt : r.attempt = history.countP RequestEvent.isIssue
  bound : r.attempt + (if r.state = .queued then 1 else 0) ≤
    1 + history.countP RequestEvent.isDefer + min (row.expirations.getD 0) (maximum - 1)

/-- A row and the history of its request. -/
structure Kept (maximum : Nat) (id : Text) (row : Row) (history : List RequestEvent) : Prop where
  absent : row.request = none → row = {} ∧ history = []
  present : ∀ r, row.request = some r → Ticket maximum id r row history

namespace Kept

variable {maximum : Nat} {id : Text} {row row' : Row} {history events : List RequestEvent} {r : AsyncRequest}

theorem of_ticket (hr : row.request = some r) (h : Ticket maximum id r row history) : Kept maximum id row history where
  absent hnone := by
    rw [hr] at hnone
    cases hnone
  present _ hr' := by
    rw [hr] at hr'
    cases hr'
    exact h

theorem empty (maximum : Nat) (id : Text) : Kept maximum id {} [] where
  absent _ := ⟨rfl, rfl⟩
  present _ hr := by cases hr

section

variable (h : Ticket maximum id r row history)
include h

/-- A request with an open end has not ended before. -/
theorem Ticket.not_ended (hopen : r.state.terminal = false) : history.filterMap RequestEvent.ending = [] := by
  rw [h.endings, hopen]
  rfl

/-- A new claim has the largest token. -/
theorem Ticket.fence {token : Nat} (htoken : row.token = some token) :
    ((token + 1) :: history.filterMap RequestEvent.token).Pairwise (· > ·) ∧
      ∀ n ∈ (token + 1) :: history.filterMap RequestEvent.token, n ≤ token + 1 := by
  obtain ⟨_, htoken', hle⟩ := h.token
  rw [htoken] at htoken'
  cases htoken'
  constructor
  · exact pairwise_cons.mpr ⟨fun n hn => Nat.lt_succ_of_le (hle n hn), h.fenced⟩
  · intro n hn
    rcases mem_cons.mp hn with rfl | hn
    · exact Nat.le_refl _
    · exact (hle n hn).trans (Nat.le_succ _)

/-- A worker is given the request. -/
theorem Ticket.issue {token : Nat} {lease : Lease} {now : Instant} {expirations : Option Nat}
    (hopen : r.state.terminal = false) (htoken : row.token = some token) (hlease : lease.fencingToken = token + 1)
    (hbound : r.attempt + 1 ≤ 1 + history.countP RequestEvent.isDefer + min (expirations.getD 0) (maximum - 1)) :
    Ticket maximum id { r with state := .claimed, attempt := r.attempt + 1, updatedAt := now }
      { request := some { r with state := .claimed, attempt := r.attempt + 1, updatedAt := now }
        lease := some lease
        token := some (token + 1)
        expirations } ([issued lease.workerId lease.fencingToken] ++ history) := by
  have hfence := Ticket.fence h htoken
  have hnone := Ticket.not_ended h hopen
  refine ⟨h.id, ⟨token + 1, rfl, ?_⟩, ?_, ?_, rfl, ?_, hnone, ?_, ?_, hbound⟩
  · rw [hlease]; exact hfence.2
  · rw [hlease]; exact hfence.1
  · exact Payload.of_clear (h.payload.clear hopen) noConfusion noConfusion
  · rintro _ ⟨⟩; rfl
  · exact fun h => Bool.noConfusion h
  · exact congrArg (· + 1) h.attempt |>.trans (countP_cons_of_pos rfl).symm

/-- The bound on tokens survives a fence. -/
theorem Ticket.token_bumped {token : Option Nat} (htoken : token = row.token ∨ token = row.token.map (· + 1)) :
    ∃ t, token = some t ∧ ∀ n ∈ history.filterMap RequestEvent.token, n ≤ t := by
  obtain ⟨t, ht, hle⟩ := h.token
  rcases htoken with rfl | rfl
  · exact ⟨t, ht, hle⟩
  · refine ⟨t + 1, by rw [ht]; rfl, fun n hn => (hle n hn).trans (Nat.le_succ _)⟩

end

theorem move (hk : Kept maximum id row history) (hmove : Move maximum id row events row') :
    Kept maximum id row' (events ++ history) := by
  cases hmove with
  | create hid hattempt hstate hpayload =>
    obtain rfl := (hk.absent rfl).2
    refine of_ticket rfl ⟨hid, ⟨0, rfl, ?_⟩, List.Pairwise.nil, hpayload, ?_, ?_, ?_, ?_, hattempt, ?_⟩
    · exact fun n hn => absurd hn not_mem_nil
    · rw [hstate]; rfl
    · rintro _ ⟨⟩
    · rw [hstate]; rfl
    · rw [hstate]; exact fun h => Bool.noConfusion h
    · rw [hattempt, hstate]; exact Nat.le_add_right _ _
  | stillborn hid hattempt hstate hpayload =>
    obtain rfl := (hk.absent rfl).2
    refine of_ticket rfl ⟨hid, ⟨0, rfl, ?_⟩, List.Pairwise.nil, hpayload, ?_, ?_, ?_, ?_, hattempt, ?_⟩
    · exact fun n hn => absurd hn not_mem_nil
    · rw [hstate]; rfl
    · rintro _ ⟨⟩
    · rw [hstate]; rfl
    · rw [hstate]; exact fun _ => rfl
    · rw [hattempt, hstate]; exact Nat.zero_le _
  | @settle _ r r' token hr hopen hid hattempt hover hpayload htoken =>
    have h := hk.present r hr
    refine of_ticket rfl ⟨hid.trans h.id, Ticket.token_bumped h htoken, h.fenced, hpayload, ?_, ?_, ?_, ?_, ?_, ?_⟩
    · exact held_of_terminal hover
    · rintro _ ⟨⟩
    · show r'.state :: history.filterMap RequestEvent.ending = _
      rw [Ticket.not_ended h hopen, if_pos hover]
    · exact fun _ => rfl
    · exact hattempt.trans h.attempt
    · have hqueued : r'.state ≠ .queued := by
        intro hq
        rw [hq] at hover
        cases hover
      rw [if_neg hqueued, hattempt]
      exact (Nat.le_add_right _ _).trans h.bound
  | @lose _ r hr =>
    have h := hk.present r hr
    refine of_ticket hr { h with bound := h.bound.trans ?_ }
    simp only [nil_append, Option.getD_some]
    omega
  | @claim _ r token lease now hr hqueued htoken hlease =>
    have h := hk.present r hr
    have hbound := h.bound
    rw [if_pos hqueued] at hbound
    exact of_ticket rfl (Ticket.issue h (by rw [hqueued]; rfl) htoken hlease hbound)
  | @reclaim _ r token lease now hr hheld htoken hlease hlt =>
    have h := hk.present r hr
    have hbound := h.bound
    refine of_ticket rfl (Ticket.issue h (terminal_of_held hheld) htoken hlease ?_)
    simp only [Option.getD_some]
    omega
  | @renew _ r lease leaseUntil hr hlease =>
    have h := hk.present r hr
    refine of_ticket hr { h with leased := ?_, latest := ?_ }
    · rw [h.leased, hlease]
      rfl
    · rintro _ ⟨⟩
      exact h.latest lease hlease
  | @run _ r now hr hclaimed =>
    have h := hk.present r hr
    have hopen : r.state.terminal = false := by rw [hclaimed]; rfl
    have hleased := h.leased
    rw [hclaimed] at hleased
    refine of_ticket rfl { h with
      payload := ?_, leased := hleased, endings := ?_, last := fun hover => Bool.noConfusion hover, bound := ?_ }
    · exact Payload.of_clear (h.payload.clear hopen) noConfusion noConfusion
    · exact Ticket.not_ended h hopen
    · have hbound := h.bound
      rw [hclaimed] at hbound
      exact hbound
  | @defer _ r now hr hheld =>
    have h := hk.present r hr
    have hopen := terminal_of_held hheld
    refine of_ticket rfl ⟨h.id, Ticket.token_bumped h (.inr rfl), h.fenced, ?_, rfl, ?_, ?_, ?_, h.attempt, ?_⟩
    · exact Payload.of_clear (h.payload.clear hopen) noConfusion noConfusion
    · rintro _ ⟨⟩
    · have hnone := Ticket.not_ended h hopen
      exact hnone
    · exact fun h => Bool.noConfusion h
    · have hbound := h.bound
      rw [show (([deferred] ++ history).countP RequestEvent.isDefer) = history.countP RequestEvent.isDefer + 1 from
        countP_cons_of_pos rfl, if_pos rfl]
      simp only
      omega

theorem moves (hk : Kept maximum id row history) (hmoves : Moves maximum id row events row') :
    Kept maximum id row' (events ++ history) := by
  induction hmoves with
  | refl => exact hk
  | tail _ hmove ih =>
    rw [append_assoc]
    exact ih.move hmove

end Kept

end AsyncRequest

end Kairyu
