import Photon.Net.CookieJar
/-!
# ClientImpl::call

A call prepares the headers of the request, then makes round trips until one succeeds or fails
for good. Two counters and a deadline limit them: a redirect counts as followed and begins a new
series of retries.
-/

namespace Photon.Http

open Estring HeadersBase Nat

/-! ## Round trips -/

inductive RoundtripStatus where
  | SUCCESS
  | FAILED
  | REDIRECT
  | NEED_RETRY
  | FORCE_RETRY
  | FAST_RETRY
  deriving DecidableEq

structure Timeout where
  expiration : Nat
  deriving DecidableEq

def Timeout.of (now x : Nat) : Timeout := ⟨if x ≠ 0 then min (now + x) (2 ^ 64 - 1) else 0⟩

def Timeout.left (t : Timeout) (now : Nat) : Nat := t.expiration - now

inductive Dial where
  | connected
  /-- `ECONNREFUSED` or `ENOENT`. -/
  | refused
  | failed
  deriving DecidableEq

/-- What happens in a turn of the loop: the time when it is looked at, what the calls return, and the response. -/
structure Trip where
  /-- At the condition of the loop. -/
  checkTime : Nat
  /-- In `do_roundtrip`. -/
  tripTime : Nat
  /-- Behind the `switch`. -/
  afterTime : Nat
  dial : Dial
  headerSent : Bool
  /-- The buffer, the stream or the writer of the body. -/
  bodySent : Bool
  sent : Bool
  headerReceived : Bool
  statusCode : Nat
  /-- The value of `Location`. -/
  location : Bytes
  /-- Whether `req.redirect` succeeds. -/
  redirected : Bool
  deriving DecidableEq

def code3xx : List Nat → Nat
  | [] => 0
  | x :: xs => 1 <<< (x - 300) ||| code3xx xs

def codeRedirectVerb : Nat := code3xx [300, 301, 302, 307, 308]

def Trip.redirect (t : Trip) : RoundtripStatus :=
  if t.location = [] then .FAILED
  else
    let sc := t.statusCode - 300
    -- 303, and the codes that keep the verb
    if sc = 3 ∨ (sc < 10 ∧ codeRedirectVerb.testBit sc) then
      if t.redirected = false then .FAILED else .REDIRECT
    else .FAILED

/-- `do_roundtrip`: its status, and the status code of the operation. -/
def doRoundtrip (follow : Nat) (tmo : Timeout) (t : Trip) : RoundtripStatus × Int :=
  if tmo.left t.tripTime = 0 then (.FAILED, -1)
  else
    match t.dial with
    | .refused => (.FAST_RETRY, -1)
    | .failed => (.NEED_RETRY, -1)
    | .connected =>
      if t.headerSent = false ∨ t.bodySent = false ∨ t.sent = false ∨ t.headerReceived = false then (.NEED_RETRY, -1)
      else if t.statusCode < 400 ∧ t.statusCode ≥ 300 ∧ follow ≠ 0 then (t.redirect, t.statusCode)
      else (.SUCCESS, t.statusCode)

/-! ## The call -/

structure Operation where
  req : Message
  timeout : Timeout := ⟨2 ^ 64 - 1⟩
  follow : Nat := 8
  retry : Nat := 5

structure Client where
  commonHeaders : List (Bytes × Bytes) := []
  userAgent : Bytes := []
  /-- `m_cookie_jar`: a table for each host. -/
  cookieJar : Option (Bytes → SimpleCookie) := none
  timeout : Nat := 2 ^ 64 - 1

def mergeHeaders : List (Bytes × Bytes) → HeadersBase → HeadersBase
  | [], h => h
  | kv :: kvs, h =>
    match h.insert kv.1 kv.2 with
    | .error _ => h
    | .ok h' => mergeHeaders kvs h'

def setJarCookies (jar : Bytes → SimpleCookie) (now : Nat) (m : Message) : Bool × Message :=
  if m.host = [] then (false, m)
  else
    let r := (jar m.host).setCookiesToHeaders now m
    (r.1, r.2.2)

def Client.addHeaders (cl : Client) (m : Message) : Message :=
  let h := mergeHeaders cl.commonHeaders m.headers
  let agent := if cl.userAgent = [] then chars "PhotonLibOS_HTTP" else cl.userAgent
  let h := (h.insert (chars "User-Agent") agent).toOption.getD h
  { m with headers := (h.insert (chars "Connection") (chars "keep-alive")).toOption.getD h }

/-- The beginning of `call`: the request with its headers, or what is returned without one. -/
def Client.prepare (cl : Client) (time : Nat) (m : Message) : Except Int Message :=
  if toUint64 (m.headers.getValue (chars "Content-Length")) ≠ 0 ∧ m.headers.getValue (chars "Transfer-Encoding") = chars "chunked" then
    -- ROUNDTRIP_FAILED
    .error 1
  else
    match cl.cookieJar with
    | none => .ok (cl.addHeaders m)
    | some jar =>
      let r := setJarCookies jar time (cl.addHeaders m)
      if r.1 = false then .error (-1) else .ok r.2

structure Calling where
  retry : Nat := 0
  followed : Nat := 0
  ret : RoundtripStatus := .SUCCESS
  sleepInterval : Nat := 0
  trips : Nat := 0
  statusCode : Int := -1
  deriving DecidableEq

open Calling

def Calling.count (s : Calling) : Calling :=
  match s.ret with
  | .NEED_RETRY => { s with sleepInterval := (s.sleepInterval + 500) * 2 % 2 ^ 64, retry := s.retry + 1 }
  | .FAST_RETRY => { s with retry := s.retry + 1 }
  | .REDIRECT => { s with retry := 0, followed := s.followed + 1 }
  | _ => s

def Calling.done (s : Calling) : Int × Calling := (if s.ret ≠ .SUCCESS then -1 else 0, s)

section Loop

variable (op : Operation) (tmo : Timeout) (trips : Nat → Trip)

def Calling.goes (s : Calling) : Prop :=
  s.followed ≤ op.follow ∧ s.retry ≤ op.retry ∧ tmo.left (trips s.trips).checkTime ≠ 0

instance (s : Calling) : Decidable (s.goes op tmo trips) := inferInstanceAs (Decidable (_ ∧ _))

def Calling.trip (s : Calling) : Calling := { s with
    ret := (doRoundtrip op.follow tmo (trips s.trips)).1
    statusCode := (doRoundtrip op.follow tmo (trips s.trips)).2
    trips := s.trips + 1 }

def callLoop : Nat → Calling → Option (Int × Calling)
  | 0, s => if s.goes op tmo trips then none else some s.done
  | fuel + 1, s =>
    if s.goes op tmo trips then
      let s1 := s.trip op tmo trips
      if s1.ret = .SUCCESS ∨ s1.ret = .FAILED then some s1.done
      else
        let s2 := s1.count
        if tmo.left (trips s.trips).afterTime = 0 then some (-1, s2)
        else if s2.followed > op.follow ∨ s2.retry > op.retry then some (-1, s2)
        else callLoop fuel s2
    else some s.done

end Loop

def Client.deadline (cl : Client) (op : Operation) (now : Nat) : Timeout := .of now (min (op.timeout.left now) cl.timeout)

/-- `ClientImpl::call` at `now`: what it returns, and the round trips it has made. Cookies have a clock of their own. -/
def Client.call (cl : Client) (op : Operation) (time now : Nat) (trips : Nat → Trip) (fuel : Nat) : Option (Int × Calling) :=
  match cl.prepare time op.req with
  | .error ret => some (ret, {})
  | .ok _ => callLoop op (cl.deadline op now) trips fuel {}

lemma prepare_error {cl : Client} {time : Nat} {m : Message} {why : Int} (h : cl.prepare time m = .error why) : why ≠ 0 := by
  unfold Client.prepare at h
  split at h
  · cases h
    decide
  split at h
  · cases h
  · dsimp only at h
    split at h <;> cases h
    decide

/-! ## How many round trips -/

section Loop

variable {op : Operation} {tmo : Timeout} {trips : Nat → Trip} {s : Calling}

/-- How many round trips are left: the retries of this series, and a series for each redirect. -/
def Calling.budget (op : Operation) (s : Calling) : Nat :=
  (op.follow - s.followed) * (op.retry + 1) + (op.retry + 1 - s.retry)

lemma redirect_ne_force (t : Trip) : t.redirect ≠ .FORCE_RETRY := by
  unfold Trip.redirect
  dsimp only
  split
  · decide
  split
  · split <;> decide
  · decide

lemma doRoundtrip_ne_force (follow : Nat) (tmo : Timeout) (t : Trip) : (doRoundtrip follow tmo t).1 ≠ .FORCE_RETRY := by
  unfold doRoundtrip
  split
  · decide
  cases t.dial with
  | refused | failed => exact RoundtripStatus.noConfusion
  | connected =>
    dsimp only
    split
    · decide
    split
    · exact redirect_ne_force t
    · exact RoundtripStatus.noConfusion

lemma budget_count (hr : s.retry ≤ op.retry) (hre : s.ret = .NEED_RETRY ∨ s.ret = .FAST_RETRY ∨ s.ret = .REDIRECT)
    (hf' : s.count.followed ≤ op.follow) : s.count.budget op < s.budget op := by
  unfold budget
  rcases hre with h | h | h
  · unfold Calling.count
    rw [h]
    dsimp only
    omega
  · unfold Calling.count
    rw [h]
    dsimp only
    omega
  · unfold Calling.count at hf' ⊢
    rw [h] at hf' ⊢
    dsimp only at hf' ⊢
    obtain ⟨d, hd⟩ : ∃ d, op.follow - s.followed = d + 1 := ⟨op.follow - s.followed - 1, by omega⟩
    have hd' : op.follow - (s.followed + 1) = d := by omega
    rw [hd, hd', add_mul, one_mul]
    omega

lemma count_trips (s : Calling) : s.count.trips = s.trips ∧ s.count.ret = s.ret := by
  unfold Calling.count
  split <;> exact ⟨rfl, rfl⟩

lemma done_zero (h : s.done.1 = 0) : s.ret = .SUCCESS := by
  unfold done at h
  by_contra hne
  rw [if_pos hne] at h
  cases h

/-- What the loop does from `s` on, with enough turns: it ends, and returns 0 where it does not go on after a success,
or after a round trip that succeeded. -/
lemma callLoop_spec (op : Operation) (tmo : Timeout) (trips : Nat → Trip) {s : Calling} (fuel : Nat) (hf : s.followed ≤ op.follow) (hr : s.retry ≤ op.retry) (hfu : s.budget op ≤ fuel) :
    ∃ ret s', callLoop op tmo trips fuel s = some (ret, s') ∧ s'.trips ≤ s.trips + s.budget op ∧
      (ret = 0 → (¬ s.goes op tmo trips ∧ s.ret = .SUCCESS ∧ s' = s) ∨
        (s.trips < s'.trips ∧ (doRoundtrip op.follow tmo (trips (s'.trips - 1))).1 = .SUCCESS)) := by
  induction fuel generalizing s with
  | zero =>
    unfold budget at hfu
    omega
  | succ fuel ih =>
    have hpo : 0 < s.budget op := by
      unfold budget
      omega
    unfold callLoop
    by_cases hg : s.goes op tmo trips
    · rw [if_pos hg]
      dsimp only
      have ht : (s.trip op tmo trips).trips = s.trips + 1 := rfl
      by_cases he : (s.trip op tmo trips).ret = .SUCCESS ∨ (s.trip op tmo trips).ret = .FAILED
      · rw [if_pos he]
        refine ⟨_, _, rfl, by rw [ht]; omega, fun hre => .inr ⟨by rw [ht]; omega, ?_⟩⟩
        rw [ht, Nat.add_sub_cancel]
        exact done_zero hre
      · rw [if_neg he]
        obtain ⟨hco, hsa⟩ := count_trips (s.trip op tmo trips)
        rw [ht] at hco
        by_cases hla : tmo.left (trips s.trips).afterTime = 0
        · rw [if_pos hla]
          exact ⟨_, _, rfl, by rw [hco]; omega, fun hre => (by cases hre)⟩
        rw [if_neg hla]
        by_cases hm : (s.trip op tmo trips).count.followed > op.follow ∨ (s.trip op tmo trips).count.retry > op.retry
        · rw [if_pos hm]
          exact ⟨_, _, rfl, by rw [hco]; omega, fun hre => (by cases hre)⟩
        rw [if_neg hm]
        have hre : (s.trip op tmo trips).ret = .NEED_RETRY ∨ (s.trip op tmo trips).ret = .FAST_RETRY ∨
            (s.trip op tmo trips).ret = .REDIRECT := by
          have hfo : (s.trip op tmo trips).ret ≠ .FORCE_RETRY := doRoundtrip_ne_force _ _ _
          cases h : (s.trip op tmo trips).ret with
          | SUCCESS => exact absurd (.inl h) he
          | FAILED => exact absurd (.inr h) he
          | REDIRECT => exact .inr (.inr rfl)
          | NEED_RETRY => exact .inl rfl
          | FORCE_RETRY => exact absurd h hfo
          | FAST_RETRY => exact .inr (.inl rfl)
        have hle : (s.trip op tmo trips).count.budget op < s.budget op :=
          budget_count (s := s.trip op tmo trips) hr hre (by omega)
        obtain ⟨ret, s', hru, hbo, hz⟩ := ih (s := (s.trip op tmo trips).count) (by omega) (by omega) (by omega)
        rw [hco] at hbo hz
        refine ⟨ret, s', hru, by omega, fun h0 => ?_⟩
        rcases hz h0 with ⟨-, hsu, -⟩ | ⟨hlt, hlas⟩
        · -- the status is still the one of this round trip
          rw [hsa] at hsu
          exact absurd (.inl hsu) he
        · exact .inr ⟨by omega, hlas⟩
    · rw [if_neg hg]
      exact ⟨_, _, rfl, le_add_right _ _, fun hre => .inl ⟨hg, done_zero hre, rfl⟩⟩

lemma callLoop_mono {fuel : Nat} {r : Int × Calling} (h : callLoop op tmo trips fuel s = some r) :
    callLoop op tmo trips (fuel + 1) s = some r := by
  induction fuel generalizing s with unfold callLoop at h ⊢
  | zero =>
    by_cases hg : s.goes op tmo trips
    · rw [if_pos hg] at h
      cases h
    · rw [if_neg hg] at h ⊢
      exact h
  | succ fuel ih =>
    by_cases hg : s.goes op tmo trips
    · rw [if_pos hg] at h ⊢
      dsimp only at h ⊢
      split at h
      next he =>
        rw [if_pos he]
        exact h
      rename_i he
      rw [if_neg he]
      split at h
      next hla =>
        rw [if_pos hla]
        exact h
      rename_i hla
      rw [if_neg hla]
      split at h
      next hm =>
        rw [if_pos hm]
        exact h
      next hm =>
        rw [if_neg hm]
        exact ih h
    · rw [if_neg hg] at h ⊢
      exact h

end Loop

/-- Every call ends, with at most `(follow + 1) * (retry + 1)` round trips. It returns 0 only if it has made a round
trip and the last one succeeded, if and only if it makes no request at all or the deadline has not passed before the
first round trip. -/
theorem call_roundtrips (cl : Client) (op : Operation) (time now : Nat) (trips : Nat → Trip) :
    ∃ ret s, (∀ fuel, (op.follow + 1) * (op.retry + 1) ≤ fuel → cl.call op time now trips fuel = some (ret, s)) ∧
      ((s.trips ≤ (op.follow + 1) * (op.retry + 1) ∧
          (ret = 0 → 0 < s.trips ∧ (doRoundtrip op.follow (cl.deadline op now) (trips (s.trips - 1))).1 = .SUCCESS)) ↔
        ((∃ why, cl.prepare time op.req = .error why) ∨ (cl.deadline op now).left (trips 0).checkTime ≠ 0)) := by
  unfold Client.call
  cases hpr : cl.prepare time op.req with
  | error why =>
    refine ⟨why, {}, fun _ _ => rfl, iff_of_true ⟨zero_le _, fun h0 => ?_⟩ (.inl ⟨why, rfl⟩)⟩
    exact absurd h0 (prepare_error hpr)
  | ok =>
    have hbu : budget op {} = (op.follow + 1) * (op.retry + 1) := by
      unfold budget
      rw [Nat.sub_zero, Nat.sub_zero, add_mul, one_mul]
    obtain ⟨ret, s, hr, hbo, hz⟩ := callLoop_spec op (cl.deadline op now) trips _ (zero_le _)
      (zero_le _) (le_of_eq hbu)
    rw [hbu] at hbo
    have hst : goes op (cl.deadline op now) trips {} ↔ (cl.deadline op now).left (trips 0).checkTime ≠ 0 :=
      ⟨fun h => h.2.2, fun h => ⟨zero_le _, zero_le _, h⟩⟩
    refine ⟨ret, s, fun fuel hf => ?_, ?_, ?_⟩
    · obtain ⟨more, rfl⟩ := Nat.exists_eq_add_of_le hf
      induction more with
      | zero => exact hr
      | succ more ih => exact callLoop_mono (ih (le_add_right _ _))
    · rintro ⟨-, hla⟩
      refine .inr fun hlat => ?_
      -- the loop is not entered, and the first value of `ret` is returned
      have hn : ¬ goes op (cl.deadline op now) trips {} := fun h => hst.1 h hlat
      have hd : callLoop op (cl.deadline op now) trips ((op.follow + 1) * (op.retry + 1)) {} = some (0, {}) := by
        rw [add_mul, one_mul, ← add_assoc, callLoop, if_neg hn]
        rfl
      rw [hr] at hd
      obtain ⟨rfl, rfl⟩ := Prod.mk.inj (Option.some.inj hd)
      exact absurd (hla rfl).1 (lt_irrefl 0)
    · rintro (⟨why, hw⟩ | he)
      · cases hw
      refine ⟨by rwa [zero_add] at hbo, fun h0 => ?_⟩
      rcases hz h0 with ⟨hn, -⟩ | hla
      · exact absurd (hst.2 he) hn
      · exact hla

def tripOf (t code : Nat) : Trip where
  checkTime := t
  tripTime := t
  afterTime := t
  dial := .connected
  headerSent := true
  bodySent := true
  sent := true
  headerReceived := true
  statusCode := code
  location := chars "/"
  redirected := true

/-- A timeout of 0: nothing is sent, and 0 is returned. -/
theorem call_expired :
    (({} : Client).call { req := emptyRequest, timeout := ⟨7⟩ } 0 7 (fun k => tripOf (8 + k) 200) 54).map
      (fun r => (r.1, r.2.trips, r.2.statusCode)) = some (0, 0, -1) := by
  decide +kernel

end Photon.Http
