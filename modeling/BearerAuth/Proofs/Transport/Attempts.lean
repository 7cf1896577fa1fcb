import BearerAuth.Proofs.Clock
import BearerAuth.Proofs.Transport.Frame
import BearerAuth.Proofs.Transport.Wire

/-!
# The schedule of attempts

A retried call is a course of attempts, each a whole exchange of the transport within,
with the same request.  `Retry.sequel` says in exact arithmetic what follows an attempt:
the call is over, or it rests until the instant of the next attempt.  `Retry.Course` puts
attempts and rests together, and a retried call takes exactly its course
(`attempts_follow_schedule`), whatever the transport within does with each attempt.

The arithmetic is exact because the delays double only as long as they are within the
limit: `settle_eq` compares the registers with the exact values once, and everything
else is about the exact ones.
-/

namespace BearerAuth

open Stretch

namespace Transport

/-! ## Transports of a lone caller -/

/-- For a lone caller, an exchange that starts in a world ends with a reply in another. -/
def Replies (transport : Transport) (caller : Caller) (url : Url) (request : Request)
    (w : World) (reply : Reply) (w' : World) : Prop :=
  Ends (transport.resume caller) (transport.start caller url request w) reply w'

/-- A transport does not move the clock: what it has to wait for it waits for. -/
structure KeepsTime (transport : Transport) : Prop where
  start : ∀ caller url request w, World.SameTime w (transport.start caller url request w).2
  resume : ∀ caller phase w, World.SameTime w (transport.resume caller phase w).2

theorem KeepsTime.later {transport : Transport} (h : transport.KeepsTime) {caller : Caller}
    {url : Url} {request : Request} {w w' : World} {reply : Reply}
    (hreplies : transport.Replies caller url request w reply w') :
    w.now ≤ w'.now ∧ w'.agenda = w.agenda :=
  Ends.later (h.resume caller) (h.start caller url request w) hreplies

theorem wire_keepsTime (peer : Peer) : (wire peer).KeepsTime := by
  constructor
  · intro caller url request w
    rw [wire_start_world]
    exact ⟨rfl, rfl⟩
  · intro caller reply w
    exact ⟨rfl, rfl⟩

theorem sameTime_frame : World.Frame World.SameTime where
  refl := .refl
  trans := .trans
  note _ _ _ := ⟨rfl, rfl⟩
  setGrant _ _ _ := ⟨rfl, rfl⟩
  release _ _ := ⟨rfl, rfl⟩

theorem KeepsTime.respects {transport : Transport} (h : transport.KeepsTime) :
    transport.Respects World.SameTime := ⟨h.start, h.resume⟩

theorem Respects.keepsTime {transport : Transport} (h : transport.Respects World.SameTime) :
    transport.KeepsTime := ⟨h.start, h.resume⟩

theorem authorized_keepsTime {base : Transport} (hbase : base.KeepsTime) (place : Nat) :
    (authorized base place).KeepsTime :=
  (hbase.respects.authorized sameTime_frame place).keepsTime

theorem wire_replies_sent {peer : Peer} {caller : Caller} {url : Url} {request : Request}
    {w w' : World} {reply : Reply} (h : (wire peer).Replies caller url request w reply w') :
    w'.sent = w.sent ++ [⟨w.now, url, request⟩] := by
  let sent : List Exchange := w.sent ++ [⟨w.now, url, request⟩]
  refine h.invariant (I := fun w' => w'.sent = sent) (fun _ _ hsent => hsent)
    (fun _ _ hsent => hsent) ?_
  rw [wire_start_world]

namespace Retry

/-! ## What follows an attempt -/

/-- The delay after an attempt; attempts are counted from one. -/
def delayAfter (schedule : Settings.Schedule) (count : Nat) : Span :=
  schedule.baseDelay * 2 ^ (count - 1)

inductive Sequel where
  | settled (reply : Reply)
  | rest (wake : Instant)

/-- What follows the reply to an attempt, and the world with what is noted about it. -/
def sequel (schedule : Settings.Schedule) (caller : Caller) (call : Call) (count : Nat)
    (reply : Reply) (w : World) : Sequel × World :=
  match reply with
  | .ok response => (.settled (.ok response), w)
  | .error failure =>
      let delay := delayAfter schedule count
      if failure.reason ≠ .connection ∧ failure.reason ≠ .timeout then
        (.settled (.error failure), w)
      else if w.now - call.began + delay > schedule.giveUpAfter then
        (.settled (.error ⟨failure.reason, failure.message ++ utf8 " (gave up after " ++
           Bytes.ofNat count ++ utf8 " attempts)"⟩),
         noteGivingUp call count failure w)
      else if caller.deadline.any fun deadline => w.now + delay ≥ deadline then
        (.settled (.error ⟨.timeout, failure.message ++ utf8 " (request deadline reached)"⟩), w)
      else if caller.canceled w.now then (.settled (.error .requestCanceled), w)
      else (.rest (w.now + delay), noteRetry call count delay failure w)

abbrev resume (schedule : Settings.Schedule) (inner : Transport) (caller : Caller) :
    Phase inner.Phase → World → Stretch (Phase inner.Phase) Reply :=
  (retried schedule inner).resume caller

/-- The course of a call from attempt `count` on: the instants at which attempts begin, the
reply to the call, and the world of its end.  A rest lasts until its instant, to the
nanosecond, unless the caller is canceled by then. -/
inductive Course (inner : Transport) (schedule : Settings.Schedule) (caller : Caller)
    (call : Call) : Nat → World → List Instant → Reply → World → Prop
  | settled {count : Nat} {w w₁ w₂ : World} {reply final : Reply} :
      inner.Replies caller call.url call.request w reply w₁ →
      sequel schedule caller call count reply w₁ = (.settled final, w₂) →
      Course inner schedule caller call count w [w.now] final w₂
  | interrupted {count : Nat} {w w₁ w₂ : World} {reply : Reply} {wake instant : Instant} :
      inner.Replies caller call.url call.request w reply w₁ →
      sequel schedule caller call count reply w₁ = (.rest wake, w₂) →
      caller.cancelAt = some instant → instant ≤ wake →
      Course inner schedule caller call count w [w.now] (.error .requestCanceled)
        { w₂ with now := instant }
  | again {count : Nat} {w w₁ w₂ w₃ : World} {reply final : Reply} {wake : Instant}
      {begins : List Instant} :
      inner.Replies caller call.url call.request w reply w₁ →
      sequel schedule caller call count reply w₁ = (.rest wake, w₂) →
      (∀ instant, caller.cancelAt = some instant → wake < instant) →
      Course inner schedule caller call (count + 1) { w₂ with now := wake } begins final w₃ →
      Course inner schedule caller call count w (w.now :: begins) final w₃

section

variable {inner : Transport} {schedule : Settings.Schedule} {caller : Caller} {call : Call}
  {count : Nat} {w w₁ w₂ w' : World} {reply final : Reply} {wake : Instant}
  {begins : List Instant}

theorem delayAfter_succ (schedule : Settings.Schedule) (hcount : 1 ≤ count) :
    delayAfter schedule (count + 1) = delayAfter schedule count * 2 := by
  obtain ⟨k, rfl⟩ : ∃ k, count = k + 1 := ⟨count - 1, by omega⟩
  simp only [delayAfter, Nat.add_sub_cancel, Int.pow_succ, Int.mul_assoc]

theorem delayAfter_pos (hschedule : schedule.Moderate) (count : Nat) :
    0 < delayAfter schedule count :=
  Int.mul_pos hschedule.base_pos (Int.pow_pos (by decide))

theorem sequel_noted (schedule : Settings.Schedule) (caller : Caller) (call : Call) (count : Nat)
    (reply : Reply) (w : World) :
    World.Noted w (sequel schedule caller call count reply w).2 := by
  cases reply with
  | ok response => exact .inl rfl
  | error failure =>
      simp only [sequel]
      split
      · exact .inl rfl
      · split
        · exact .inr ⟨_, _, rfl⟩
        · split
          · exact .inl rfl
          · split
            · exact .inl rfl
            · exact .inr ⟨_, _, rfl⟩

theorem noted_of_sequel {next : Sequel}
    (h : sequel schedule caller call count reply w = (next, w₂)) : World.Noted w w₂ := by
  have hnoted := sequel_noted schedule caller call count reply w
  rwa [h] at hnoted

/-- A call may rest only for a delay within its limit, and until an instant before its
deadline, while its caller is not canceled. -/
theorem sequel_rest (h : sequel schedule caller call count reply w = (.rest wake, w₂)) :
    wake = w.now + delayAfter schedule count ∧
      w.now - call.began + delayAfter schedule count ≤ schedule.giveUpAfter ∧
      (∀ deadline, caller.deadline = some deadline → wake < deadline) ∧
      caller.canceled w.now = false := by
  cases reply with
  | ok response => cases h
  | error failure =>
      simp only [sequel] at h
      split at h
      · cases h
      · split at h
        · cases h
        · next hlimit =>
            split at h
            · cases h
            · next hdeadline =>
                split at h
                · cases h
                · next hcanceled =>
                    obtain rfl := Sequel.rest.inj (Prod.mk.inj h).1
                    refine ⟨rfl, Int.not_lt.mp hlimit, ?_, by simpa using hcanceled⟩
                    intro deadline hsome
                    simpa [hsome] using hdeadline

/-! ## Registers and exact values -/

/-- The instants of a call at which no register wraps: it has not taken too long, and the
next delay is not too long. -/
structure Steady (schedule : Settings.Schedule) (call : Call) (count : Nat) (now : Instant) :
    Prop where
  began : Clock.Moderate call.began
  later : call.began ≤ now
  soon : now - call.began < 2 ^ 62
  delay : delayAfter schedule count < 2 ^ 62

theorem Steady.exceedsLimit (h : Steady schedule call count w.now)
    (hschedule : schedule.Moderate) :
    Retry.exceedsLimit schedule call (delayAfter schedule count) w.now =
      decide (w.now - call.began + delayAfter schedule count > schedule.giveUpAfter) := by
  have hpos := delayAfter_pos hschedule count
  obtain ⟨-, hlater, hsoon, hdelay⟩ := h
  have helapsed : Clock.wrap (w.now - call.began) = w.now - call.began :=
    Clock.wrap_of_fits (by lia) (by lia)
  rw [Retry.exceedsLimit, helapsed, Clock.wrap_of_fits (by lia) (by lia)]

theorem Steady.after (h : Steady schedule call count w.now) (hschedule : schedule.Moderate)
    (hlimit : w.now - call.began + delayAfter schedule count ≤ schedule.giveUpAfter) :
    Clock.after w.now (delayAfter schedule count) = w.now + delayAfter schedule count := by
  have hpos := delayAfter_pos hschedule count
  have hlt := hschedule.limit_lt
  obtain ⟨⟨hlow, hhigh⟩, hlater, -, -⟩ := h
  exact Clock.after_of_fits (by lia) (by lia)

theorem settle_eq {φ : Type} (h : Steady schedule call count w.now)
    (hschedule : schedule.Moderate) (hagenda : w.agenda = []) :
    (settle schedule caller call count (delayAfter schedule count) reply w :
      Stretch (Phase φ) Reply) =
      ((match (sequel schedule caller call count reply w).1 with
        | .settled final => .done final
        | .rest wake => .paused (.resting call count (delayAfter schedule count))
            { timer := some wake, cancel := caller.cancelAt }),
       (sequel schedule caller call count reply w).2) := by
  cases reply with
  | ok response => rfl
  | error failure =>
      have htransient : (!failure.isTransient) = true ↔
          failure.reason ≠ .connection ∧ failure.reason ≠ .timeout := by
        simp [Failure.isTransient]
      simp only [settle, sequel, htransient, h.exceedsLimit hschedule, World.canceled_eq hagenda,
        decide_eq_true_eq]
      split
      · rfl
      · split
        · rfl
        · next hlimit =>
            have hafter := h.after hschedule (Int.not_lt.mp hlimit)
            have hdeadline : meetsDeadline caller (delayAfter schedule count) w.now =
                caller.deadline.any fun deadline =>
                  w.now + delayAfter schedule count ≥ deadline := by
              rw [meetsDeadline, hafter]
              cases caller.deadline <;> rfl
            rw [hdeadline, hafter]
            split
            · rfl
            · split
              · rfl
              · rfl

theorem Steady.again (h : Steady schedule call count w.now) (hschedule : schedule.Moderate)
    (hcount : 1 ≤ count) (hrest : sequel schedule caller call count reply w = (.rest wake, w₂)) :
    Clock.wrap (delayAfter schedule count * 2) = delayAfter schedule (count + 1) ∧
      delayAfter schedule (count + 1) < 2 ^ 62 := by
  have hpos := delayAfter_pos hschedule count
  have hlt := hschedule.limit_lt
  obtain ⟨-, hlimit, -⟩ := sequel_rest hrest
  have hlater := h.later
  rw [delayAfter_succ schedule hcount]
  exact ⟨Clock.wrap_of_fits (by lia) (by lia), by lia⟩

/-! ## Rests -/

theorem advanceTo_later {instant : Instant} (h : w.now ≤ instant) :
    w.advanceTo instant = { w with now := instant } := by
  simp [World.advanceTo, Int.max_eq_right h]

theorem resume_resting (schedule : Settings.Schedule) (inner : Transport) (caller : Caller)
    (call : Call) (count : Nat) (delay : Span) (w : World) :
    resume schedule inner caller (.resting call count delay) w =
      if w.canceled caller then (.done (.error .requestCanceled), w)
      else attempt inner schedule caller call (count + 1) (Clock.wrap (delay * 2)) w :=
  rfl

theorem finish_rest_interrupted {fuel : Nat} {delay : Span} {wake instant : Instant}
    (hagenda : w.agenda = []) (hcanceled : caller.canceled w.now = false)
    (hcancel : caller.cancelAt = some instant) (hle : instant ≤ wake) :
    finish (resume schedule inner caller) (fuel + 1)
        (.paused (.resting call count delay)
          { timer := some wake, cancel := caller.cancelAt }, w) =
      some (.error .requestCanceled, { w with now := instant }) := by
  have hlater : w.now ≤ instant := by
    simp only [Caller.canceled, hcancel, decide_eq_false_iff_not] at hcanceled
    exact Int.le_of_lt (Int.not_le.mp hcanceled)
  have hcome : ({ w with now := instant } : World).canceled caller = true := by
    rw [@World.canceled_eq { w with now := instant } hagenda]
    simp [Caller.canceled, hcancel]
  simp only [finish, hcancel, Wait.ends, Int.min_eq_right hle, advanceTo_later hlater,
    resume_resting, hcome, if_true, finish_done]

/-- A rest without a cancellation lasts until its instant, and then the next attempt begins. -/
theorem rest_again (schedule : Settings.Schedule) (inner : Transport) (call : Call) (count : Nat)
    (delay : Span) (hagenda : w.agenda = []) (hlater : w.now ≤ wake)
    (hcancel : ∀ instant, caller.cancelAt = some instant → wake < instant) :
    ({ timer := some wake, cancel := caller.cancelAt } : Wait).ends = some wake ∧
      resume schedule inner caller (.resting call count delay) (w.advanceTo wake) =
        attempt inner schedule caller call (count + 1) (Clock.wrap (delay * 2))
          { w with now := wake } := by
  have hnot : ({ w with now := wake } : World).canceled caller = false := by
    rw [@World.canceled_eq { w with now := wake } hagenda, Caller.canceled]
    split
    · rfl
    · next instant hsome => exact decide_eq_false (Int.not_le.mpr (hcancel instant hsome))
  constructor
  · simp only [Wait.ends]
    split
    · next timer instant htimer hsome =>
        obtain rfl := Option.some.inj htimer
        rw [Int.min_eq_left (Int.le_of_lt (hcancel instant hsome))]
    · next timer htimer _ => exact htimer.symm
    · next htimer _ => cases htimer
    · next htimer _ => cases htimer
  · rw [advanceTo_later hlater, resume_resting, hnot]
    rfl

theorem finish_rest_again {fuel : Nat} {delay : Span} (hagenda : w.agenda = [])
    (hlater : w.now ≤ wake) (hcancel : ∀ instant, caller.cancelAt = some instant → wake < instant) :
    finish (resume schedule inner caller) (fuel + 1)
        (.paused (.resting call count delay)
          { timer := some wake, cancel := caller.cancelAt }, w) =
      finish (resume schedule inner caller) fuel
        (attempt inner schedule caller call (count + 1) (Clock.wrap (delay * 2))
          { w with now := wake }) := by
  obtain ⟨hends, hresume⟩ := rest_again schedule inner call count delay hagenda hlater hcancel
  simp only [finish, hends, hresume]

theorem run_rest_again {n : Nat} {delay : Span} (hagenda : w.agenda = [])
    (hlater : w.now ≤ wake) (hcancel : ∀ instant, caller.cancelAt = some instant → wake < instant) :
    run (resume schedule inner caller) (n + 1)
        (.paused (.resting call count delay)
          { timer := some wake, cancel := caller.cancelAt }, w) =
      run (resume schedule inner caller) n
        (attempt inner schedule caller call (count + 1) (Clock.wrap (delay * 2))
          { w with now := wake }) := by
  obtain ⟨hends, hresume⟩ := rest_again schedule inner call count delay hagenda hlater hcancel
  simp only [run, hends, hresume]

/-! ## Whole calls -/

/-- An attempt may begin: no delay before it has been too long. -/
structure Ready (schedule : Settings.Schedule) (call : Call) (count : Nat) (w : World) :
    Prop where
  counted : 1 ≤ count
  began : Clock.Moderate call.began
  later : call.began ≤ w.now
  delay : delayAfter schedule count < 2 ^ 62
  agenda : w.agenda = []

theorem Ready.first (hschedule : schedule.Moderate) (hnow : Clock.Moderate w.now)
    (hagenda : w.agenda = []) (url : Url) (request : Request) :
    Ready schedule ⟨url, request, w.now⟩ 1 w := by
  have hfirst : delayAfter schedule 1 = schedule.baseDelay := Int.mul_one _
  have hbase := hschedule.base_lt
  exact ⟨Nat.le_refl 1, hnow, Int.le_refl _, by rw [hfirst]; lia, hagenda⟩

theorem Ready.steady (h : Ready schedule call count w) (hinner : inner.KeepsTime)
    (hreplies : inner.Replies caller call.url call.request w reply w₁)
    (hend : w₁.now < call.began + 2 ^ 62) : Steady schedule call count w₁.now ∧ w₁.agenda = [] := by
  obtain ⟨hle, hagenda⟩ := hinner.later hreplies
  exact ⟨⟨h.began, Int.le_trans h.later hle, by lia, h.delay⟩, hagenda.trans h.agenda⟩

theorem Ready.again (h : Ready schedule call count w) (hschedule : schedule.Moderate)
    (hsteady : Steady schedule call count w₁.now) (hagenda : w₁.agenda = [])
    (hrest : sequel schedule caller call count reply w₁ = (.rest wake, w₂)) :
    Ready schedule call (count + 1) { w₂ with now := wake } ∧ w₂.now ≤ wake ∧
      w₂.agenda = [] := by
  obtain ⟨hwake, -⟩ := sequel_rest hrest
  have hsame := (noted_of_sequel hrest).sameTime
  have hpos := delayAfter_pos hschedule count
  have hlater : w₁.now ≤ wake := by lia
  have hagenda₂ := hsame.agenda.trans hagenda
  exact ⟨⟨Nat.le_succ_of_le h.counted, h.began, Int.le_trans hsteady.later hlater,
    (hsteady.again hschedule h.counted hrest).2, hagenda₂⟩, hsame.now ▸ hlater, hagenda₂⟩

theorem retried_keepsTime (hinner : inner.KeepsTime) (schedule : Settings.Schedule) :
    (retried schedule inner).KeepsTime :=
  (hinner.respects.retried sameTime_frame schedule).keepsTime

/-- A call that ends has taken a course: by induction on the patience it took, of which
every rest needs some. -/
theorem course_of_finish (hinner : inner.KeepsTime) (hschedule : schedule.Moderate) {fuel : Nat}
    (hready : Ready schedule call count w)
    (h : finish (resume schedule inner caller) fuel
      (attempt inner schedule caller call count (delayAfter schedule count) w) =
        some (final, w')) (hend : w'.now < call.began + 2 ^ 62) :
    ∃ begins, Course inner schedule caller call count w begins final w' := by
  induction fuel using Nat.strongRecOn generalizing count w with
  | ind fuel ih =>
      obtain ⟨reply, w₁, rest, hle, hreply, hrest⟩ := finish_andThen (fun _ _ => rfl) h
      have hreplies : inner.Replies caller call.url call.request w reply w₁ := ⟨fuel, hreply⟩
      have hretried := retried_keepsTime hinner schedule
      have hw₁ : w₁.now ≤ w'.now :=
        (Ends.later (hretried.resume caller) (settle_noted _ _ _ _ _ _ _).sameTime
          ⟨rest, hrest⟩).1
      obtain ⟨hsteady, hagenda⟩ := hready.steady hinner hreplies (Int.lt_of_le_of_lt hw₁ hend)
      rw [settle_eq hsteady hschedule hagenda] at hrest
      rcases hsequel : sequel schedule caller call count reply w₁ with ⟨final' | wake, w₂⟩
      · rw [hsequel, finish_done] at hrest
        obtain ⟨rfl, rfl⟩ := Prod.mk.inj (Option.some.inj hrest)
        exact ⟨_, .settled hreplies hsequel⟩
      · rw [hsequel] at hrest
        obtain ⟨left, -, rfl, -, -⟩ := finish_paused_eq_some hrest
        obtain ⟨hready₂, hlater, hagenda₂⟩ := hready.again hschedule hsteady hagenda hsequel
        obtain ⟨-, -, -, hcanceled⟩ := sequel_rest hsequel
        have hsame := (noted_of_sequel hsequel).sameTime
        by_cases hcancel : ∃ instant, caller.cancelAt = some instant ∧ instant ≤ wake
        · obtain ⟨instant, hsome, hle'⟩ := hcancel
          rw [finish_rest_interrupted hagenda₂ (hsame.now ▸ hcanceled) hsome hle'] at hrest
          obtain ⟨rfl, rfl⟩ := Prod.mk.inj (Option.some.inj hrest)
          exact ⟨_, .interrupted hreplies hsequel hsome hle'⟩
        · have hnone (instant : Instant) (hsome : caller.cancelAt = some instant) :
              wake < instant := Int.not_le.mp fun hle' => hcancel ⟨instant, hsome, hle'⟩
          rw [finish_rest_again hagenda₂ hlater hnone,
            (hsteady.again hschedule hready.counted hsequel).1] at hrest
          obtain ⟨begins, hcourse⟩ := ih left hle hready₂ hrest
          exact ⟨_, .again hreplies hsequel hnone hcourse⟩

/-- The clock of a course never goes back. -/
theorem Course.later (hinner : inner.KeepsTime) (hschedule : schedule.Moderate)
    (h : Course inner schedule caller call count w begins final w') : w.now ≤ w'.now := by
  induction h with
  | settled hreplies hsequel =>
      exact (noted_of_sequel hsequel).sameTime.now ▸ (hinner.later hreplies).1
  | @interrupted count w w₁ w₂ reply wake instant hreplies hsequel hcancel hle =>
      obtain ⟨-, -, -, hcanceled⟩ := sequel_rest hsequel
      simp only [Caller.canceled, hcancel, decide_eq_false_iff_not] at hcanceled
      exact Int.le_trans (hinner.later hreplies).1 (Int.le_of_lt (Int.not_le.mp hcanceled))
  | @again count w w₁ w₂ w₃ reply final wake begins hreplies hsequel hcancel _ ih =>
      obtain ⟨hwake, -⟩ := sequel_rest hsequel
      have hpos := delayAfter_pos hschedule count
      have hle := (hinner.later hreplies).1
      have hlater : w.now ≤ wake := by lia
      exact Int.le_trans hlater ih

/-- A call ends as its course says: by induction on the course. -/
theorem Course.ends (hinner : inner.KeepsTime) (hschedule : schedule.Moderate)
    (h : Course inner schedule caller call count w begins final w')
    (hready : Ready schedule call count w) (hend : w'.now < call.began + 2 ^ 62) :
    Ends (resume schedule inner caller)
      (attempt inner schedule caller call count (delayAfter schedule count) w) final w' := by
  induction h with
  | @settled count w w₁ w₂ reply final hreplies hsequel =>
      obtain ⟨hsteady, hagenda⟩ := hready.steady hinner hreplies
        ((noted_of_sequel hsequel).sameTime.now ▸ hend)
      refine Ends.andThen (fun _ _ => rfl) hreplies ?_
      rw [settle_eq hsteady hschedule hagenda, hsequel]
      exact ends_done
  | @interrupted count w w₁ w₂ reply wake instant hreplies hsequel hcancel hle =>
      obtain ⟨-, -, -, hcanceled⟩ := sequel_rest hsequel
      have hsame := (noted_of_sequel hsequel).sameTime
      have hlt : w₁.now < instant := by
        simpa only [Caller.canceled, hcancel, decide_eq_false_iff_not, Int.not_le] using hcanceled
      obtain ⟨hsteady, hagenda⟩ := hready.steady hinner hreplies (Int.lt_trans hlt hend)
      refine Ends.andThen (fun _ _ => rfl) hreplies ⟨1, ?_⟩
      rw [settle_eq hsteady hschedule hagenda, hsequel]
      exact finish_rest_interrupted (hsame.agenda.trans hagenda) (hsame.now ▸ hcanceled) hcancel hle
  | @again count w w₁ w₂ w₃ reply final wake begins hreplies hsequel hcancel hcourse ih =>
      have hwake : wake ≤ w₃.now := hcourse.later hinner hschedule
      obtain ⟨heq, -⟩ := sequel_rest hsequel
      have hpos := delayAfter_pos hschedule count
      have hw₁ : w₁.now < call.began + 2 ^ 62 := by lia
      obtain ⟨hsteady, hagenda⟩ := hready.steady hinner hreplies hw₁
      obtain ⟨hready₂, hlater, hagenda₂⟩ := hready.again hschedule hsteady hagenda hsequel
      obtain ⟨fuel, hfuel⟩ := ih hready₂ hend
      refine Ends.andThen (fun _ _ => rfl) hreplies ⟨fuel + 1, ?_⟩
      rw [settle_eq hsteady hschedule hagenda, hsequel]
      refine (finish_rest_again hagenda₂ hlater hcancel).trans ?_
      rw [(hsteady.again hschedule hready.counted hsequel).1]
      exact hfuel

/-- Every attempt but the first begins within the limit and before the deadline. -/
theorem Course.begins_eq
    (h : Course inner schedule caller call count w begins final w') :
    ∃ later, begins = w.now :: later ∧ ∀ instant ∈ later,
      instant ≤ call.began + schedule.giveUpAfter ∧
      ∀ deadline, caller.deadline = some deadline → instant < deadline := by
  induction h with
  | settled => exact ⟨[], rfl, by simp⟩
  | interrupted => exact ⟨[], rfl, by simp⟩
  | @again count w w₁ w₂ w₃ reply final wake begins _ hsequel _ _ ih =>
      obtain ⟨later, rfl, hlater⟩ := ih
      obtain ⟨hwake, hlimit, hdeadline, -⟩ := sequel_rest hsequel
      refine ⟨_, rfl, fun instant hin => ?_⟩
      rcases List.mem_cons.mp hin with rfl | hin
      · exact ⟨by lia, hdeadline⟩
      · exact hlater instant hin

/-- When every attempt ends there is a course: the delays double, so none of them is within
the limit for long.  The induction is on the number of further attempts that may be. -/
theorem course_exists (hinner : inner.KeepsTime) (hschedule : schedule.Moderate)
    (hends : ∀ w : World, w.agenda = [] →
      ∃ reply w₁, inner.Replies caller call.url call.request w reply w₁)
    (more : Nat) (hcount : 1 ≤ count) (hagenda : w.agenda = []) (hbegan : call.began ≤ w.now)
    (hbeyond : schedule.giveUpAfter < delayAfter schedule (count + more)) :
    ∃ begins final w', Course inner schedule caller call count w begins final w' := by
  induction more generalizing count w with
  | zero =>
      obtain ⟨reply, w₁, hreplies⟩ := hends w hagenda
      have hle := (hinner.later hreplies).1
      rcases hsequel : sequel schedule caller call count reply w₁ with ⟨final | wake, w₂⟩
      · exact ⟨_, _, _, .settled hreplies hsequel⟩
      · obtain ⟨-, hlimit, -⟩ := sequel_rest hsequel
        rw [Nat.add_zero] at hbeyond
        lia
  | succ more ih =>
      obtain ⟨reply, w₁, hreplies⟩ := hends w hagenda
      obtain ⟨hle, hagenda₁⟩ := hinner.later hreplies
      rcases hsequel : sequel schedule caller call count reply w₁ with ⟨final | wake, w₂⟩
      · exact ⟨_, _, _, .settled hreplies hsequel⟩
      · by_cases hcancel : ∃ instant, caller.cancelAt = some instant ∧ instant ≤ wake
        · obtain ⟨instant, hsome, hle'⟩ := hcancel
          exact ⟨_, _, _, .interrupted hreplies hsequel hsome hle'⟩
        · obtain ⟨hwake, -⟩ := sequel_rest hsequel
          have hpos := delayAfter_pos hschedule count
          have hsame := (noted_of_sequel hsequel).sameTime
          rw [Nat.add_comm more, ← Nat.add_assoc] at hbeyond
          have hlater : call.began ≤ wake := by lia
          obtain ⟨begins, final, w', hcourse⟩ :=
            @ih (count + 1) { w₂ with now := wake } (Nat.le_succ_of_le hcount)
              (hsame.agenda.trans (hagenda₁.trans hagenda)) hlater hbeyond
          exact ⟨_, _, _, .again hreplies hsequel
            (fun instant hsome => Int.not_le.mp fun hle' => hcancel ⟨instant, hsome, hle'⟩)
            hcourse⟩

/-- A call ends as its courses say, and only so. -/
theorem replies_iff_course (hinner : inner.KeepsTime) (hschedule : schedule.Moderate)
    {url : Url} {request : Request} (hagenda : w.agenda = []) (hnow : Clock.Moderate w.now)
    (hend : w'.now < w.now + 2 ^ 62) :
    (retried schedule inner).Replies caller url request w reply w' ↔
      ∃ begins, Course inner schedule caller ⟨url, request, w.now⟩ 1 w begins reply w' := by
  have hfirst : delayAfter schedule 1 = schedule.baseDelay := Int.mul_one _
  have hready := Ready.first hschedule hnow hagenda url request
  constructor
  · rintro ⟨fuel, hfuel⟩
    have hattempt : finish (resume schedule inner caller) fuel (attempt inner schedule caller
        ⟨url, request, w.now⟩ 1 (delayAfter schedule 1) w) = some (reply, w') := by
      rw [hfirst]
      exact hfuel
    exact course_of_finish hinner hschedule hready hattempt hend
  · rintro ⟨begins, hcourse⟩
    have hends := hcourse.ends hinner hschedule hready hend
    rw [hfirst] at hends
    exact hends

theorem course_of_attempts_end (hinner : inner.KeepsTime) (hschedule : schedule.Moderate)
    {url : Url} {request : Request} (hagenda : w.agenda = [])
    (hends : ∀ w : World, w.agenda = [] →
      ∃ reply w', inner.Replies caller url request w reply w') :
    ∃ begins reply w', Course inner schedule caller ⟨url, request, w.now⟩ 1 w begins reply w' := by
  refine course_exists hinner hschedule hends 61 (Nat.le_refl 1) hagenda (Int.le_refl _) ?_
  have hpos := hschedule.base_pos
  have hlt := hschedule.limit_lt
  simp only [delayAfter]
  lia

theorem Course.sent {peer : Peer}
    (h : Course (wire peer) schedule caller call count w begins final w') :
    w'.sent = w.sent ++ begins.map fun instant => ⟨instant, call.url, call.request⟩ := by
  induction h with
  | settled hreplies hsequel =>
      rw [(noted_of_sequel hsequel).sent, wire_replies_sent hreplies]
      rfl
  | interrupted hreplies hsequel =>
      exact (noted_of_sequel hsequel).sent.trans (wire_replies_sent hreplies)
  | again hreplies hsequel _ _ ih =>
      have hsent := (noted_of_sequel hsequel).sent.trans (wire_replies_sent hreplies)
      rw [ih, hsent, List.map_cons, List.append_assoc]
      rfl

/-! ## The schedule -/

/-- **A retried call takes the course of its schedule**, no more and no less, as long as its
instants fit the registers: after each attempt it is over or rests just as `sequel` says,
and after a rest the next attempt begins.  There is a course when every attempt comes to an
end.  No attempt but the first begins beyond the limit, or at the deadline or later; and
over the wire the attempts send one and the same request, each when it begins. -/
theorem attempts_follow_schedule (hinner : inner.KeepsTime) (hschedule : schedule.Moderate)
    (caller : Caller) (url : Url) (request : Request) (hagenda : w.agenda = [])
    (hnow : Clock.Moderate w.now) :
    (∀ {reply w'}, w'.now < w.now + 2 ^ 62 →
      ((retried schedule inner).Replies caller url request w reply w' ↔
        ∃ begins, Course inner schedule caller ⟨url, request, w.now⟩ 1 w begins reply w')) ∧
    ((∀ w : World, w.agenda = [] → ∃ reply w', inner.Replies caller url request w reply w') →
      ∃ begins reply w', Course inner schedule caller ⟨url, request, w.now⟩ 1 w begins reply w') ∧
    ∀ {begins reply w'}, Course inner schedule caller ⟨url, request, w.now⟩ 1 w begins reply w' →
      (∃ later, begins = w.now :: later ∧ ∀ instant ∈ later,
        instant ≤ w.now + schedule.giveUpAfter ∧
        ∀ deadline, caller.deadline = some deadline → instant < deadline) ∧
      ∀ peer, inner = wire peer →
        w'.sent = w.sent ++ begins.map fun instant => ⟨instant, url, request⟩ := by
  refine ⟨replies_iff_course hinner hschedule hagenda hnow,
    course_of_attempts_end hinner hschedule hagenda, ?_⟩
  intro begins reply w' hcourse
  refine ⟨hcourse.begins_eq, ?_⟩
  rintro peer rfl
  exact hcourse.sent

/-- A peer that refuses the first exchange and answers the others. -/
def hesitantPeer : Peer := fun history _ => .ok
  { delay := 5
    reply := if history.isEmpty then .error ⟨.connection, utf8 "refused"⟩ else .ok {} }

theorem second_attempt_follows_schedule :
    ∃ w', (retried .brisk (wire hesitantPeer)).Replies {} {} {} {} (.ok {}) w' ∧
      Course (wire hesitantPeer) .brisk {} ⟨{}, {}, 0⟩ 1 {} [0, 100000005] (.ok {}) w' ∧
      100000005 ≤ Settings.Schedule.brisk.giveUpAfter := by
  obtain ⟨w', hreplies, hnow, hsent⟩ :
      ∃ w', (retried .brisk (wire hesitantPeer)).Replies {} {} {} {} (.ok {}) w' ∧
        w'.now < 0 + 2 ^ 62 ∧ w'.sent.map Exchange.instant = [0, 100000005] :=
    ⟨_, ⟨3, rfl⟩, by decide, rfl⟩
  obtain ⟨hcourses, -, hall⟩ := attempts_follow_schedule (w := {}) (wire_keepsTime hesitantPeer)
    Settings.Schedule.brisk_moderate {} {} {} rfl ⟨by decide, by decide⟩
  obtain ⟨begins, hcourse⟩ := (hcourses hnow).mp hreplies
  obtain ⟨⟨later, hbegins, hlater⟩, hwire⟩ := hall hcourse
  rw [hwire _ rfl, List.map_append, List.map_map] at hsent
  obtain rfl : begins = [0, 100000005] := by simpa [Function.comp_def] using hsent
  obtain rfl := (List.cons.inj hbegins).2
  exact ⟨w', hreplies, hcourse, (hlater _ List.mem_cons_self).1⟩

end

end Retry

end Transport

end BearerAuth
