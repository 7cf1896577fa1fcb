import BearerAuth.Transport.Wire

/-!
# What an exchange leaves

An exchange leaves clock, callers and grants alone: that is all that is asked of a transport
(`Transport.KeepsApart`).  When and whether a request that is handed to it goes out is its own
affair.  The wire records a request when it is handed over, whatever becomes of it
(`Transport.SendsOnce`); a transport that first connects, or refuses a canceled caller without
sending anything, does not.
-/

namespace BearerAuth

/-- What an exchange leaves alone: the clock, the callers, and the grants. -/
structure World.Outward (w w' : World) : Prop where
  now : w'.now = w.now
  agenda : w'.agenda = w.agenda
  released : w'.released = w.released
  grants : w'.grants = w.grants

namespace Transport

/-- Exchanges leave clock, callers and grants alone. -/
structure KeepsApart (base : Transport) : Prop where
  start : ∀ caller url request w, World.Outward w (base.start caller url request w).2
  resume : ∀ caller phase w, World.Outward w (base.resume caller phase w).2

/-- And what is recorded as sent is what is handed over, when it is: a property of the wire, on
which tests are run, and not of every transport. -/
structure SendsOnce (base : Transport) : Prop extends base.KeepsApart where
  sent_start : ∀ caller url request w,
    (base.start caller url request w).2.sent = w.sent ++ [⟨w.now, url, request⟩]
  sent_resume : ∀ caller phase w, (base.resume caller phase w).2.sent = w.sent

/-! ## The wire -/

theorem deliver_world (caller : Caller) (delivery : Delivery) (w : World) :
    (Wire.deliver caller delivery w).2 = w := by
  rw [Wire.deliver]
  split
  · rfl
  · split
    · rfl
    · split
      · rfl
      · rfl

theorem wire_start_world (peer : Peer) (caller : Caller) (url : Url) (request : Request)
    (w : World) :
    ((wire peer).start caller url request w).2 =
      { w with sent := w.sent ++ [⟨w.now, url, request⟩] } := by
  simp only [wire]
  split
  · rfl
  · exact deliver_world caller _ _

theorem wire_sendsOnce (peer : Peer) : (wire peer).SendsOnce where
  start caller url request w := by
    rw [wire_start_world]
    exact ⟨rfl, rfl, rfl, rfl⟩
  resume caller reply w := ⟨rfl, rfl, rfl, rfl⟩
  sent_start caller url request w := by rw [wire_start_world]
  sent_resume caller reply w := rfl

theorem wire_keepsApart (peer : Peer) : (wire peer).KeepsApart :=
  (wire_sendsOnce peer).toKeepsApart

/-- How a caller waits for a reply: it has set a timer, its own cancellation ends the pause, which
is not a brief one, and it has not been canceled yet. -/
structure WaitsForReply (caller : Caller) (wait : Wait) (w : World) : Prop where
  timer : ∃ instant, wait.timer = some instant
  long : wait.brief = false
  cancel : wait.cancel = caller.cancelAt
  uncanceled : w.canceled caller = false

theorem deliver_waits {caller : Caller} {delivery : Delivery} {reply : Reply} {wait : Wait}
    {w : World} (h : (Wire.deliver caller delivery w).1 = .paused reply wait) :
    WaitsForReply caller wait (Wire.deliver caller delivery w).2 := by
  rw [deliver_world]
  rw [Wire.deliver] at h
  split at h
  · cases h
  · next huncanceled =>
      split at h
      · cases h
      · split at h
        · cases h
        · cases h
          exact ⟨⟨_, rfl⟩, rfl, rfl, Bool.eq_false_iff.mpr huncanceled⟩

theorem wire_waits {peer : Peer} {caller : Caller} {url : Url} {request : Request} {reply : Reply}
    {wait : Wait} {w w' : World}
    (h : (wire peer).start caller url request w = (.paused reply wait, w')) :
    WaitsForReply caller wait w' := by
  simp only [wire] at h
  split at h
  · cases h
  · have hwaits := deliver_waits (congrArg Prod.fst h)
    rwa [h] at hwaits

end Transport

end BearerAuth
