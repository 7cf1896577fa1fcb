import BearerAuth.Proofs.Introspection.Isolation
import BearerAuth.Proofs.Introspection.Sparing

/-!
# The pool has the latest lines

A call that begins looks up its blueprint in the pool, and a line is filed when the pool has
none for it.  `Filings` is the history of what was filed, whether it is still there or had to
make room.  At any time of any run the pool has the latest lines of the history, as many as
there is room for, and the queue their keys (`pool_has_latest`).  Calls that look nothing up,
and those that find a line, leave both as they are.
-/

namespace BearerAuth

open Transport

namespace Introspection

section

variable {base : Transport} {options : Options} {policy : Settings.Policy}
  {schedule : Settings.Schedule} {plan : Blueprint} {line : Line} {w : World}

/-! ## The route of a blueprint -/

theorem routeFor_hit (hplan : blueprint? policy schedule = some plan)
    (hline : w.pool.find? plan.key = some line) :
    routeFor options policy schedule w = (.preAuthorized line, w) := by
  obtain ⟨pre, endpoint, hpre, hendpoint, rfl⟩ := blueprint?_eq_some hplan
  have hfound : w.pool.find? (Pool.key endpoint pre schedule) = some line := hline
  simp only [routeFor, hpre, hendpoint, lineFor, hfound]

theorem routeFor_miss (options : Options) (hplan : blueprint? policy schedule = some plan)
    (hnone : w.pool.find? plan.key = none) :
    (routeFor options policy schedule w).1 =
        .preAuthorized ⟨w.grants.length, plan.schedule⟩ ∧
      (routeFor options policy schedule w).2.filed =
        (Pool.makeRoom options.capacity w.filed w.pool).1 ++ [plan.key] ∧
      (routeFor options policy schedule w).2.pool =
        (Pool.makeRoom options.capacity w.filed w.pool).2.insert plan.key
          ⟨w.grants.length, plan.schedule⟩ := by
  obtain ⟨pre, endpoint, hpre, hendpoint, rfl⟩ := blueprint?_eq_some hplan
  have hmissed : w.pool.find? (Pool.key endpoint pre schedule) = none := hnone
  simp only [routeFor, hpre, hendpoint, lineFor, hmissed]
  exact ⟨rfl, rfl, rfl⟩

theorem Call.start_spares (hbase : base.Sparing) (call : Call)
    (hnone : ∀ policy schedule token, call.Asks policy schedule token →
      blueprint? policy schedule = none) (w : World) :
    World.Spared w (start base options call.settings call.inquiry call.session w).2 := by
  cases hconfigured : policyFor call.settings call.inquiry.config with
  | error rejection =>
      rw [start, hconfigured]
      exact (reject_noted rejection call.session w).spared
  | ok found =>
      obtain ⟨policy, schedule⟩ := found
      obtain ⟨token, htoken⟩ :
          ∃ token, Credential.extract call.inquiry.request policy.tokenFrom = token := ⟨_, rfl⟩
      by_cases hnil : token = []
      · simp only [start, hconfigured, htoken, hnil, List.isEmpty_nil, if_true]
        exact .refl w
      · have hasks : call.Asks policy schedule token := ⟨hconfigured, htoken, hnil⟩
        rw [Call.start_of_asks hasks]
        have hspared : World.Spared (routeFor options policy schedule w).2
            (ask base options policy schedule token call.inquiry call.session w).2 :=
          ask_spares hbase options token call.inquiry call.session
        rwa [routeFor_none (hnone policy schedule token hasks)] at hspared

end

/-! ## Steps -/

section

variable {base : Transport} {options : Options} {calls : List Call} {i : Ticket}
  {label : Option Ticket} {policy : Settings.Policy} {schedule : Settings.Schedule}
  {plan : Blueprint} {start t t' : Timeline (Pending base) Judgement}

/-- In a step a call looks up its blueprint in the pool: it begins, and it asks about a token
with a token of its own. -/
structure LooksUp (calls : List Call) (i : Ticket) (policy : Settings.Policy)
    (schedule : Settings.Schedule) (plan : Blueprint)
    (t t' : Timeline (Pending base) Judgement) : Prop where
  begins : Timeline.Begins i t t'
  asks : ∃ call token, calls[i]? = some call ∧ call.Asks policy schedule token
  planned : blueprint? policy schedule = some plan

/-- In a step a blueprint is filed: a call looks it up, and the pool does not have it. -/
def Files (calls : List Call) (label : Option Ticket) (plan : Blueprint)
    (t t' : Timeline (Pending base) Judgement) : Prop :=
  t.world.pool.find? plan.key = none ∧
    ∃ i policy schedule, label = some i ∧ LooksUp calls i policy schedule plan t t'

/-- The pool and the queue are the same. -/
def SamePool (w w' : World) : Prop := w'.pool = w.pool ∧ w'.filed = w.filed

theorem LooksUp.spared (hbase : base.Sparing)
    (hjobs : t.jobs = calls.map (Call.job base options))
    (h : LooksUp calls i policy schedule plan t t') :
    World.Spared (routeFor options policy schedule t.world).2 t'.world := by
  obtain ⟨call, token, hcall, hasks⟩ := h.asks
  have hjob : t.jobs[i]? = some (call.job base options) := by simp [hjobs, hcall]
  have hspared : World.Spared (routeFor options policy schedule t.world).2
      (ask base options policy schedule token call.inquiry call.session t.world).2 :=
    ask_spares hbase options token call.inquiry call.session
  rw [h.begins.world_eq hjob]
  simp only [Call.job, Call.start_of_asks hasks]
  exact ⟨hspared.pool, hspared.filed, hspared.called⟩

/-- The new line is the last, and the oldest have made room for it. -/
theorem Files.pool_eq (hbase : base.Sparing)
    (hjobs : t.jobs = calls.map (Call.job base options)) (h : Files calls label plan t t') :
    t'.world.filed =
        (Pool.makeRoom options.capacity t.world.filed t.world.pool).1 ++ [plan.key] ∧
      t'.world.pool = (Pool.makeRoom options.capacity t.world.filed t.world.pool).2.insert
        plan.key ⟨t.world.grants.length, plan.schedule⟩ := by
  obtain ⟨hnone, i, policy, schedule, -, hlooks⟩ := h
  have hspared := hlooks.spared hbase hjobs
  have hmiss := routeFor_miss options hlooks.planned hnone
  exact ⟨hspared.filed.trans hmiss.2.1, hspared.pool.trans hmiss.2.2⟩

theorem spared_of_no_look_up (hbase : base.Sparing)
    (hjobs : t.jobs = calls.map (Call.job base options)) (hnext : Timeline.Next label t t')
    (hnone : ∀ i policy schedule plan, label = some i →
      ¬ LooksUp calls i policy schedule plan t t') :
    World.Spared t.world t'.world := by
  have hcalled {i : Ticket} {job : Job (Pending base) Judgement} (hjob : t.jobs[i]? = some job) :
      ∃ call, calls[i]? = some call ∧ call.job base options = job := by
    rwa [hjobs, List.getElem?_map, Option.map_eq_some_iff] at hjob
  refine hnext.spared ?_ ?_
  · intro i job hlabel hjob hbegins
    obtain ⟨call, hcall, rfl⟩ := hcalled hjob
    refine call.start_spares hbase ?_ t.world
    intro policy schedule token hasks
    cases hplan : blueprint? policy schedule with
    | none => rfl
    | some plan =>
        exact absurd ⟨hbegins, ⟨call, token, hcall, hasks⟩, hplan⟩
          (hnone i policy schedule plan hlabel)
  · intro i job phase hjob
    obtain ⟨call, -, rfl⟩ := hcalled hjob
    exact resume_spares hbase call.inquiry.caller phase t.world

/-- Who files nothing leaves the pool as it is: it looks nothing up, or finds a line. -/
theorem samePool_of_no_filing (hbase : base.Sparing)
    (hjobs : t.jobs = calls.map (Call.job base options)) (hnext : Timeline.Next label t t')
    (hnone : ∀ plan, ¬ Files calls label plan t t') : SamePool t.world t'.world := by
  by_cases hlooks : ∃ i policy schedule plan, label = some i ∧
      LooksUp calls i policy schedule plan t t'
  · obtain ⟨i, policy, schedule, plan, hlabel, hlooks⟩ := hlooks
    cases hfind : t.world.pool.find? plan.key with
    | none => exact absurd ⟨hfind, i, policy, schedule, hlabel, hlooks⟩ (hnone plan)
    | some line =>
        have hspared := hlooks.spared hbase hjobs
        rw [routeFor_hit hlooks.planned hfind] at hspared
        exact ⟨hspared.pool, hspared.filed⟩
  · have hspared := spared_of_no_look_up hbase hjobs hnext
      fun i policy schedule plan hlabel h => hlooks ⟨i, policy, schedule, plan, hlabel, h⟩
    exact ⟨hspared.pool, hspared.filed⟩

theorem not_files_of_direct {call : Call} (hcall : calls[i]? = some call)
    (hnone : ∀ policy schedule token, call.Asks policy schedule token →
      blueprint? policy schedule = none) (plan : Blueprint) :
    ¬ Files calls (some i) plan t t' := by
  rintro ⟨-, _, policy, schedule, hlabel, hlooks⟩
  obtain rfl := Option.some.inj hlabel
  obtain ⟨call', token, hcall', hasks⟩ := hlooks.asks
  obtain rfl := Option.some.inj (hcall.symm.trans hcall')
  have hplan := hlooks.planned
  rw [hnone policy schedule token hasks] at hplan
  cases hplan

/-! ## Runs -/

/-- Steps from a start on, and the lines that were filed in them, in their order.  Each is filed
under the key of its blueprint, and its grant is the next that is opened. -/
inductive Filings (calls : List Call) (start : Timeline (Pending base) Judgement) :
    Pool → Timeline (Pending base) Judgement → Prop
  | refl : Filings calls start [] start
  | quiet {entries : Pool} {label : Option Ticket} {t t' : Timeline (Pending base) Judgement} :
      Filings calls start entries t → Timeline.Next label t t' →
      (∀ plan, ¬ Files calls label plan t t') → Filings calls start entries t'
  | filed {entries : Pool} {label : Option Ticket} {t t' : Timeline (Pending base) Judgement}
      {plan : Blueprint} : Filings calls start entries t → Timeline.Next label t t' →
      Files calls label plan t t' →
      Filings calls start (entries ++ [(plan.key, ⟨t.world.grants.length, plan.schedule⟩)]) t'

theorem filings_of_reaches (calls : List Call) (h : Timeline.Reaches start t) :
    ∃ entries, Filings calls start entries t := by
  induction h with
  | refl => exact ⟨[], .refl⟩
  | @tail t₁ t₂ _ hnext ih =>
      obtain ⟨entries, hfilings⟩ := ih
      obtain ⟨label, hnext⟩ := hnext
      by_cases hfiles : ∃ plan, Files calls label plan t₁ t₂
      · obtain ⟨plan, hfiles⟩ := hfiles
        exact ⟨_, .filed hfilings hnext hfiles⟩
      · exact ⟨_, .quiet hfilings hnext fun plan h => hfiles ⟨plan, h⟩⟩

/-- The pool has the latest of the lines that were filed, and the queue their keys. -/
structure Latest (capacity : Nat) (entries : Pool) (w : World) : Prop where
  pool : w.pool = entries.drop (entries.length - max capacity 1)
  inStep : Pool.InStep w.filed w.pool

theorem Latest.same {capacity : Nat} {entries : Pool} {w w' : World}
    (h : Latest capacity entries w) (hsame : SamePool w w') : Latest capacity entries w' := by
  refine ⟨hsame.1.trans h.pool, ?_⟩
  rw [hsame.1, hsame.2]
  exact h.inStep

theorem Latest.file {capacity : Nat} {entries : Pool} {w w' : World} {key : Bytes} {line : Line}
    (h : Latest capacity entries w) (hnew : w.pool.find? key = none)
    (hfiled : w'.filed = (Pool.makeRoom capacity w.filed w.pool).1 ++ [key])
    (hpool : w'.pool = (Pool.makeRoom capacity w.filed w.pool).2.insert key line) :
    Latest capacity (entries ++ [(key, line)]) w' := by
  have hlength : w.filed.length = entries.length - (entries.length - max capacity 1) := by
    rw [← h.inStep.length_eq, h.pool, List.length_drop]
  have hroom : entries.length - max capacity 1 + (w.filed.length + 1 - max capacity 1) =
      entries.length + 1 - max capacity 1 := by omega
  have hle : entries.length + 1 - max capacity 1 ≤ entries.length := by omega
  refine ⟨?_, hfiled ▸ hpool ▸ h.inStep.file hnew capacity line⟩
  rw [hpool, Pool.makeRoom_eq h.inStep, Pool.insert, List.length_append, List.length_singleton,
    List.drop_append_of_le_length hle, ← hroom, ← List.drop_drop, ← h.pool]

theorem Filings.latest (hbase : base.Sparing)
    (hjobs : start.jobs = calls.map (Call.job base options))
    (hpool : start.world.pool = []) (hfiled : start.world.filed = []) {entries : Pool}
    (h : Filings calls start entries t) :
    t.jobs = calls.map (Call.job base options) ∧ Latest options.capacity entries t.world := by
  induction h with
  | refl =>
      refine ⟨hjobs, by simp [hpool], ?_⟩
      rw [hpool, hfiled]
      exact ⟨rfl, List.nodup_nil⟩
  | quiet _ hnext hquiet ih =>
      obtain ⟨hjobs, hlatest⟩ := ih
      have hsame := samePool_of_no_filing hbase hjobs hnext hquiet
      exact ⟨hnext.jobs_eq.trans hjobs, hlatest.same hsame⟩
  | filed _ hnext hfiles ih =>
      obtain ⟨hjobs, hlatest⟩ := ih
      obtain ⟨hfiled, hpool⟩ := hfiles.pool_eq hbase hjobs
      exact ⟨hnext.jobs_eq.trans hjobs, hlatest.file hfiles.1 hfiled hpool⟩

/-! ## The theorem -/

/-- **The pool has the latest lines.**  At any time of any run from an empty pool, with calls of
any kind and any capacity, the pool has the latest of the lines that were filed, as many as the
capacity and at least one, in their order; the queue has their keys in the same order and none
twice.  A line is filed only when the pool has none under its key, and every step in which none
is filed leaves pool and queue as they are.  Such are all steps of a call that asks about no
token, has none of its own to ask with, or has settings that cannot be used; and that of a call
which finds its line, and takes it as it is. -/
theorem pool_has_latest (hbase : base.Sparing) (options : Options) (calls : List Call)
    {world : World} (hpool : world.pool = []) (hfiled : world.filed = [])
    {t : Timeline (Pending base) Judgement}
    (hreach : Timeline.Reaches (Timeline.ofJobs world (calls.map (Call.job base options))) t) :
    (∃ entries, Filings calls (Timeline.ofJobs world (calls.map (Call.job base options)))
      entries t) ∧
    (∀ entries, Filings calls (Timeline.ofJobs world (calls.map (Call.job base options)))
        entries t →
      t.world.pool = entries.drop (entries.length - max options.capacity 1)) ∧
    t.world.pool.map Prod.fst = t.world.filed ∧ t.world.filed.Nodup ∧
    (∀ label t', Timeline.Next label t t' →
      (∀ plan, Files calls label plan t t' →
        plan.key ∉ t.world.filed ∧ t'.world.filed.getLast? = some plan.key) ∧
      ((∀ plan, ¬ Files calls label plan t t') → SamePool t.world t'.world) ∧
      ∀ i call, label = some i → calls[i]? = some call →
        (∀ policy schedule token, call.Asks policy schedule token →
          blueprint? policy schedule = none) → SamePool t.world t'.world) ∧
    ∀ policy schedule plan, blueprint? policy schedule = some plan →
      match t.world.pool.find? plan.key with
      | some line => routeFor options policy schedule t.world = (.preAuthorized line, t.world)
      | none => (routeFor options policy schedule t.world).1 =
          .preAuthorized ⟨t.world.grants.length, plan.schedule⟩ := by
  have hlatest {entries : Pool} (h : Filings calls
      (Timeline.ofJobs world (calls.map (Call.job base options))) entries t) :
      t.jobs = calls.map (Call.job base options) ∧ Latest options.capacity entries t.world :=
    h.latest hbase rfl hpool hfiled
  obtain ⟨entries, hfilings⟩ := filings_of_reaches calls hreach
  obtain ⟨hjobs, hnow⟩ := hlatest hfilings
  refine ⟨⟨entries, hfilings⟩, fun _ h => (hlatest h).2.pool, hnow.inStep.keys,
    hnow.inStep.nodup, ?_, ?_⟩
  · intro label t' hnext
    refine ⟨?_, samePool_of_no_filing hbase hjobs hnext, ?_⟩
    · intro plan hfiles
      refine ⟨hnow.inStep.keys ▸ Pool.find?_eq_none.mp hfiles.1, ?_⟩
      rw [(hfiles.pool_eq hbase hjobs).1, List.getLast?_concat]
    · rintro i call rfl hcall hnone
      exact samePool_of_no_filing hbase hjobs hnext (not_files_of_direct hcall hnone)
  · intro policy schedule plan hplan
    cases hfind : t.world.pool.find? plan.key with
    | none => exact (routeFor_miss options hplan hfind).1
    | some line => exact routeFor_hit hplan hfind

end

/-! ## A pool without room -/

def clientsInTurn : List Call := [clientCall "a", clientCall "b", clientCall "a"]

def inTurn : Timeline (Pending (wire issuingPeer)) Judgement :=
  Timeline.ofJobs {} (clientsInTurn.map (Call.job (wire issuingPeer) { capacity := 0 }))

/-- There is room for one line: each client has taken that of the other, and the first is back
with a new grant. -/
theorem one_line_without_room :
    (inTurn.run 7).world.pool = [((clientPlan "a").key, ⟨2, (clientPlan "a").schedule⟩)] ∧
    ∃ entries, Filings clientsInTurn inTurn entries (inTurn.run 7) ∧
      (inTurn.run 7).world.pool = entries.drop (entries.length - 1) := by
  have hlatest := pool_has_latest (wire_sparing issuingPeer) { capacity := 0 } clientsInTurn
    rfl rfl (Timeline.run_reaches 7 inTurn)
  obtain ⟨entries, hfilings⟩ := hlatest.1
  exact ⟨by decide +kernel, entries, hfilings, hlatest.2.1 entries hfilings⟩

end Introspection

end BearerAuth
