import BearerAuth.Proofs.Grant.Fault
import BearerAuth.Proofs.Timeline.Deadline
import BearerAuth.Proofs.Transport.Deadline
import BearerAuth.Transport.Authorized

/-!
# Waits for tokens within a budget

A base transport is punctual when each of its exchanges ends by the deadline of its caller
(`Transport.Punctual`).  Over such a transport the callers of a grant stay within a budget:
a caller that waits may start over each time a fetch was given up, but only then, and each
of them publishes its own outcome at most once.
-/

namespace BearerAuth

open Stretch Transport

namespace Transport

/-- Exchanges leave clock, callers, grants and pool alone.  Each pauses a number of times that
is known when it first pauses, and with a timer that goes off by the deadline of its caller,
or at once when that has passed. -/
structure Punctual (base : Transport) (rank : base.Phase → Nat) : Prop where
  start_leaves : ∀ caller url request w, World.Outward w (base.start caller url request w).2 ∧
    (base.start caller url request w).2.pool = w.pool
  resume_leaves : ∀ caller phase w, World.Outward w (base.resume caller phase w).2 ∧
    (base.resume caller phase w).2.pool = w.pool
  start_pauses : ∀ {caller url request w phase wait w'},
    base.start caller url request w = (.paused phase wait, w') →
    Stretch.Punctual caller.deadline w.now wait
  resume_pauses : ∀ {caller phase w phase' wait w'},
    base.resume caller phase w = (.paused phase' wait, w') →
    Stretch.Punctual caller.deadline w.now wait ∧ rank phase' < rank phase

/-- The wire is punctual, whatever the delays of its peer. -/
theorem wire_punctual (peer : Peer) : (wire peer).Punctual fun _ => 0 where
  start_leaves caller url request w := by
    rw [wire_start_world]
    exact ⟨⟨rfl, rfl, rfl, rfl⟩, rfl⟩
  resume_leaves caller reply w := ⟨⟨rfl, rfl, rfl, rfl⟩, rfl⟩
  start_pauses := by
    intro caller url request w reply wait w' hpaused deadline hdeadline
    simp only [wire] at hpaused
    split at hpaused
    · cases hpaused
    · simp only [Wire.deliver] at hpaused
      split at hpaused
      · cases hpaused
      · split at hpaused
        · cases hpaused
        · split at hpaused
          · cases hpaused
          · obtain ⟨hprogress, -⟩ := Prod.mk.inj hpaused
            obtain ⟨-, rfl⟩ := Progress.paused.inj hprogress
            refine ⟨_, rfl, Int.le_trans ?_ (Int.le_max_right _ _)⟩
            simp only [Wire.ending, hdeadline]
            split
            · exact Int.le_refl _
            · next hlate => exact Int.not_lt.mp hlate
  resume_pauses hpaused := by cases hpaused

/-- The budget of an exchange: it publishes nothing, and pauses as often as is known. -/
def exchangeBudget {φ : Type} (rank : φ → Nat) : Budget φ where
  fetches _ := 0
  pauses _ _ := 0
  rank := rank
  mine _ _ := True
  later _ _ := trivial
  allFetches := 0
  allPauses := 1

theorem publications_of_outward {w w' : World} (h : World.Outward w w') :
    w'.publications = w.publications := by
  funext place
  rw [World.publications, World.publications, World.grant, World.grant, h.grants]

theorem Punctual.staysWithin {base : Transport} {rank : base.Phase → Nat}
    (h : base.Punctual rank) : base.StaysWithin (exchangeBudget rank) where
  start := by
    intro w caller url request hnow
    obtain ⟨houtward, hpool⟩ := h.start_leaves caller url request w
    have horderly := World.Orderly.of_pool ⟨houtward.now, houtward.agenda⟩ hpool
    have hsame := publications_of_outward houtward
    cases hstretch : base.start caller url request w with
    | mk progress w' =>
        rw [hstretch] at horderly hsame
        cases progress with
        | done reply => exact spends_done reply horderly hsame
        | paused phase wait =>
            exact spends_paused horderly hsame trivial (h.start_pauses hstretch)
              (Nat.le_refl _) Nat.one_pos
  resume := by
    intro w phase caller hnow hmine
    obtain ⟨houtward, hpool⟩ := h.resume_leaves caller phase w
    have horderly := World.Orderly.of_pool ⟨houtward.now, houtward.agenda⟩ hpool
    have hsame := publications_of_outward houtward
    cases hstretch : base.resume caller phase w with
    | mk progress w' =>
        rw [hstretch] at horderly hsame
        cases progress with
        | done reply => exact spends_done reply horderly hsame
        | paused phase' wait =>
            obtain ⟨hpunctual, hrank⟩ := h.resume_pauses hstretch
            exact ⟨horderly, trivial, hpunctual,
              .inr ⟨hsame, Nat.le_refl _, .inr ⟨Nat.le_refl _, hrank⟩⟩⟩

end Transport

/-! ## Callers of a grant -/

namespace Acquire

/-- The budget of a caller of the grant at a place, given that of an exchange.  One that
waits has little to spend until there is a publication that it has not seen, and only one
whose wait was for a fetch given up goes on to anything that costs a fetch. -/
def budget {φ : Type} (place : Nat) (inner : Budget φ) : Budget (Phase φ) where
  fetches
    | .fetching phase => inner.fetches phase + 1
    | .joining _ | .awaiting _ | .returning .abandoned => inner.allFetches + 1
    | .returning _ => 0
  pauses publications
    | .fetching phase => inner.pauses publications phase
    | .joining seen => if publications place = seen then 1 else inner.allPauses + 4
    | .awaiting seen => if publications place = seen then 0 else inner.allPauses + 3
    | .returning _ => inner.allPauses + 2
  rank
    | .fetching phase => inner.rank phase
    | .joining _ | .awaiting _ | .returning _ => 0
  mine
    | .fetching phase, now => inner.mine phase now
    | .joining _, _ | .awaiting _, _ | .returning _, _ => True
  later := by
    intro phase now now' hmine hle
    cases phase with
    | fetching phase => exact inner.later hmine hle
    | joining seen | awaiting seen | returning ending => trivial
  allFetches := inner.allFetches + 1
  allPauses := inner.allPauses + 2

section

variable {base : Transport} {inner : Budget base.Phase} {place : Nat} {caller : Caller}
  {w w' : World} {ending : Ending}

theorem setGrant_orderly (w : World) (place : Nat) (g : Grant) :
    World.Orderly w (w.setGrant place g) :=
  .of_pool ⟨rfl, rfl⟩ rfl

theorem finish_spends (reply : Reply) :
    (finish (φ := base.Phase) place reply w).Spends (budget place inner) caller.deadline 1 0 0 w :=
  ⟨.of_pool ⟨rfl, rfl⟩ rfl, .inr Nat.one_pos⟩

theorem fetching_spends {fetches pauses rank : Nat} {stretch : Stretch base.Phase Reply}
    (h : stretch.Spends inner caller.deadline fetches pauses rank w) :
    (stretch.andThen Phase.fetching (finish place)).Spends (budget place inner) caller.deadline
      (fetches + 1) (pauses + 0) rank w := by
  have hpart : inner.PartOf (budget place inner) .fetching 1 0 :=
    ⟨fun _ => rfl, fun _ _ => rfl, fun _ => rfl⟩
  refine h.andThen hpart (fun _ hphase => hphase) ?_
  intro reply w' _
  exact finish_spends reply

theorem fetch_spends (hbase : base.StaysWithin inner) (hnow : Clock.Moderate w.now) :
    (fetch base place caller w).Spends (budget place inner) caller.deadline
      (inner.allFetches + 1) (inner.allPauses + 0) 0 w := by
  have hsame : (w.setGrant place (w.grant place).beginFetch).publications = w.publications :=
    World.publications_setGrant rfl
  refine Spends.after ?_ (setGrant_orderly w place _) hsame
  exact fetching_spends (hbase.start caller _ _ hnow)

theorem start_spends (hbase : base.StaysWithin inner) (hnow : Clock.Moderate w.now) :
    (start base place caller w).Spends (budget place inner) caller.deadline
      (budget place inner).allFetches (budget place inner).allPauses 0 w := by
  simp only [start]
  split
  · exact spends_done _ (.refl _) rfl
  · split
    · refine spends_yield (.refl _) rfl trivial (Nat.le_refl _) ?_
      simp [budget, World.publications]
    · exact (fetch_spends hbase hnow).mono (Nat.le_refl _) (Nat.le_add_right _ _)
        (Nat.le_refl _)

/-- A caller that joins the queue has seen all publications, and one that does not has news to
look at. -/
theorem await_spends (seen : Nat) : (await (φ := base.Phase) place caller seen w).Spends
    (budget place inner) caller.deadline ((budget place inner).fetches (.joining seen))
      ((budget place inner).pauses w.publications (.joining seen)) 0 w := by
  rw [await]
  split
  · next hseen =>
      have hseen : w.publications place = seen := hseen
      refine spends_paused (setGrant_orderly w place _) (World.publications_setGrant rfl) trivial
        ?_ (Nat.le_refl _) ?_
      · intro deadline hdeadline
        exact ⟨deadline, hdeadline, Int.le_max_right _ _⟩
      · simp [budget, hseen]
  · next hnews =>
      have hnews : w.publications place ≠ seen := hnews
      refine spends_yield (.refl _) rfl trivial (Nat.le_refl _) ?_
      simp [budget, hnews]

/-- Of the endings only that of a fetch given up costs a fetch, and it comes with a
publication. -/
theorem conclude_spends (seen : Nat) (hconclude : conclude place caller seen w = (ending, w')) :
    (Stretch.yield (ρ := Result) (Phase.returning ending) w').Spends (budget place inner)
      caller.deadline ((budget place inner).fetches (.awaiting seen))
      ((budget place inner).pauses w.publications (.awaiting seen)) 0 w := by
  simp only [conclude] at hconclude
  split at hconclude
  · next hnews =>
      have hnews : w.publications place ≠ seen := hnews
      obtain ⟨rfl, rfl⟩ := Prod.mk.inj hconclude
      refine spends_yield (.refl _) rfl trivial ?_ ?_
      · cases Ending.ofGrant (w.grant place) <;> simp [budget]
      · simp [budget, hnews]
  · obtain ⟨hending, rfl⟩ := Prod.mk.inj hconclude
    have hfree : (budget place inner).fetches (.returning ending) = 0 := by
      subst hending
      split
      · rfl
      · rfl
    refine spends_cheaper (setGrant_orderly w place _) trivial ?_ ?_
    · intro deadline _
      exact ⟨_, rfl, Int.le_max_left _ _⟩
    · rw [hfree]
      exact Nat.succ_pos _

theorem resume_spends (hbase : base.StaysWithin inner) {phase : Phase base.Phase}
    (hnow : Clock.Moderate w.now) (hmine : (budget place inner).mine phase w.now) :
    (resume base place caller phase w).Spends (budget place inner) caller.deadline
      ((budget place inner).fetches phase) ((budget place inner).pauses w.publications phase)
      ((budget place inner).rank phase) w := by
  cases phase with
  | fetching phase => exact fetching_spends (hbase.resume caller hnow hmine)
  | joining seen => exact await_spends seen
  | awaiting seen =>
      simp only [resume]
      cases hconclude : conclude place caller seen w with
      | mk ending w' => exact conclude_spends seen hconclude
  | returning ending =>
      cases ending with
      | abandoned => exact start_spends hbase hnow
      | refreshed | failed _ | canceled | timedOut => exact spends_done _ (.refl _) rfl

end

end Acquire

/-! ## Authorized exchanges -/

namespace Transport

/-- The budget of an authorized exchange: a token, the turns in which the request gets it, and
the exchange. -/
def Authorized.budget {φ : Type} (place : Nat) (inner : Budget φ) : Budget (Phase φ) where
  fetches
    | .acquiring _ _ phase => (Acquire.budget place inner).fetches phase + inner.allFetches
    | .acquired _ _ | .bearing _ _ => inner.allFetches
    | .sending phase => inner.fetches phase
  pauses publications
    | .acquiring _ _ phase =>
        (Acquire.budget place inner).pauses publications phase + (inner.allPauses + 2)
    | .acquired _ _ => inner.allPauses + 1
    | .bearing _ _ => inner.allPauses
    | .sending phase => inner.pauses publications phase
  rank
    | .acquiring _ _ phase => (Acquire.budget place inner).rank phase
    | .acquired _ _ | .bearing _ _ => 0
    | .sending phase => inner.rank phase
  mine
    | .acquiring _ _ phase, now => (Acquire.budget place inner).mine phase now
    | .acquired _ _, _ | .bearing _ _, _ => True
    | .sending phase, now => inner.mine phase now
  later := by
    intro phase now now' hmine hle
    cases phase with
    | acquiring url request phase => exact (Acquire.budget place inner).later hmine hle
    | acquired url request | bearing url request => trivial
    | sending phase => exact inner.later hmine hle
  allFetches := (Acquire.budget place inner).allFetches + inner.allFetches
  allPauses := (Acquire.budget place inner).allPauses + (inner.allPauses + 2)

section

variable {base : Transport} {inner : Budget base.Phase} {place : Nat} {caller : Caller}
  {w : World}

theorem sending_spends {fetches pauses rank : Nat} {stretch : Stretch base.Phase Reply}
    (h : stretch.Spends inner caller.deadline fetches pauses rank w) :
    (stretch.andThen Authorized.Phase.sending fun reply w => (.done reply, w)).Spends
      (Authorized.budget place inner) caller.deadline (fetches + 0) (pauses + 0) rank w := by
  have hpart : inner.PartOf (Authorized.budget place inner) .sending 0 0 :=
    ⟨fun _ => rfl, fun _ _ => rfl, fun _ => rfl⟩
  refine h.andThen hpart (fun _ hphase => hphase) ?_
  intro reply w' _
  exact spends_done reply (.refl w') rfl

theorem proceed_spends (url : Url) (request : Request)
    (acquired : Acquire.Result) :
    (Authorized.proceed url request acquired w).Spends (Authorized.budget place inner)
      caller.deadline inner.allFetches (inner.allPauses + 2) 0 w := by
  cases acquired with
  | error failure => exact spends_done _ (.refl _) rfl
  | ok token => exact spends_yield (.refl _) rfl trivial (Nat.le_refl _) (Nat.lt_succ_self _)

theorem acquiring_spends (url : Url) (request : Request) {fetches pauses rank : Nat}
    {stretch : Stretch (Acquire.Phase base.Phase) Acquire.Result}
    (h : stretch.Spends (Acquire.budget place inner) caller.deadline fetches pauses rank w) :
    (stretch.andThen (Authorized.Phase.acquiring url request)
      (Authorized.proceed url request)).Spends (Authorized.budget place inner)
        caller.deadline (fetches + inner.allFetches) (pauses + (inner.allPauses + 2)) rank w := by
  have hpart : (Acquire.budget place inner).PartOf (Authorized.budget place inner)
      (.acquiring url request) inner.allFetches (inner.allPauses + 2) :=
    ⟨fun _ => rfl, fun _ _ => rfl, fun _ => rfl⟩
  refine h.andThen hpart (fun _ hphase => hphase) ?_
  intro acquired w' _
  exact proceed_spends url request acquired

/-- **Authorized exchanges stay within a budget**, when exchanges do. -/
theorem authorized_staysWithin (hbase : base.StaysWithin inner) (place : Nat) :
    (authorized base place).StaysWithin (Authorized.budget place inner) where
  start := by
    intro w caller url request hnow
    exact acquiring_spends url request (Acquire.start_spends hbase hnow)
  resume := by
    intro w phase caller hnow hmine
    cases phase with
    | acquiring url request phase =>
        exact acquiring_spends url request (Acquire.resume_spends hbase hnow hmine)
    | acquired url request =>
        exact spends_yield (.refl _) rfl trivial (Nat.le_refl _) (Nat.lt_succ_self _)
    | bearing url request => exact sending_spends (hbase.start caller _ _ hnow)
    | sending phase => exact sending_spends (hbase.resume caller hnow hmine)

end

end Transport

end BearerAuth
