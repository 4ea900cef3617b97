import Photon.Rpc.OutOfOrderCalm
import Photon.Rpc.Stub
/-!
# The replies on the stream

`Inv` follows the replies: the readers have read those in `got` and are at the first one of
`rest`, and a call that has a reply in `rest` waits for it. It holds as long as nothing
disturbs the stream that the calls share: no reply is late, and no call times out while it
reads the stream.
-/

namespace Photon.Rpc.Stub

open List Function Option

open Ooo (Ctl Awake At Calm Stage Orderly nextStage)

def Idle (s : St) : Prop :=
  ∀ t, step s (.lock t) = none ∧ step s (.recv t) = none ∧ step s (.header t) = none ∧ step s (.body t) = none ∧
    step s (.resume t) = none

/-- Time passes only when no thread can run, and every reply arrives before its call expires.
No call times out while it reads or writes the stream, the tags do not wrap around and the
replies have less than 2 GiB. -/
def Undisturbed (s : St) : Ev → Prop
  | .lock _ => s.ooo.tagFor none < 2 ^ 64
  | .sendFails _ | .headerFails _ => False
  | .reply t _ body => s.now < s.expiration t ∧ body.length < 2 ^ 31
  | .tick n => Idle s ∧ ∀ r ∈ s.replies, ¬ Arrived s r → s.now + n < s.expiration r.caller
  | _ => True

structure Inv (s : St) (stage : Tid → Stage) (got rest : List Reply) : Prop where
  ctl : Ctl s.ooo
  awake : Awake s.ooo
  stages : At true s.ooo stage
  whole : s.broken = false
  locking : ∀ t user g, (s.ooo.op t).pc = .locking user g → user = none
  split : s.replies = got ++ rest
  callers : (s.replies.map Reply.caller ++ s.requests).Nodup
  tags : ∀ t, stage t ≠ .fresh → (s.ooo.op t).tag < 2 ^ 64
  sizes : ∀ r ∈ s.replies, (s.ooo.op r.caller).tag = r.tag ∧ r.body.length < 2 ^ 31
  collected : ∀ r ∈ got, (r.caller, (r.body.length : Int)) ∈ s.ooo.collects
  live : ∀ r ∈ rest, stage r.caller = .registered ∨ stage r.caller = .inCollect
  sent : ∀ r ∈ rest, s.now < s.expiration r.caller ∧ ∀ g, (s.ooo.op r.caller).pc ≠ .issuing g
  requests : ∀ t ∈ s.requests, stage t = .registered ∧ (∀ g, (s.ooo.op t).pc ≠ .issuing g) ∨ stage t = .gone
  late : ∀ t, stage t = .gone ∨ (s.ooo.op t).TimedOut → s.expiration t ≤ s.now
  reader : ∀ t u x, (s.ooo.op t).pc = .collecting u x →
    ∃ r l, rest = r :: l ∧ r.caller = u ∧ s.consumed = (flat got).length + Header.SIZE ∧ s.size = r.body.length
  noReader : (∀ t u x, (s.ooo.op t).pc ≠ .collecting u x) → s.consumed = (flat got).length
  delivered : s.consumed ≤ s.delivered ∧ s.delivered ≤ (flat s.replies).length

section

variable {s : St} {stage stage' : Tid → Stage} {got rest : List Reply} {o : Ooo.St} {t : Tid}

lemma flat_append (l l' : List Reply) : flat (l ++ l') = flat l ++ flat l' := flatMap_append

lemma flat_cons (r : Reply) (l : List Reply) : flat (r :: l) = r.bytes ++ flat l := flatMap_cons

lemma Inv.fresh (h : Inv s stage got rest) (ht : stage t = .fresh) :
    t ∉ s.requests ∧ ∀ r ∈ s.replies, r.caller ≠ t := by
  refine ⟨fun hm => ?_, fun r hr heq => ?_⟩
  · rcases h.requests t hm with ⟨hre, -⟩ | hg
    · rw [ht] at hre
      cases hre
    · rw [ht] at hg
      cases hg
  · rw [h.split, mem_append] at hr
    rcases hr with hr | hr
    · have hco := (h.stages.1.collects ..).1 (h.collected r hr)
      rw [heq, ht] at hco
      cases hco.1
    · have hlive := h.live r hr
      rw [heq, ht] at hlive
      rcases hlive with hlive | hlive <;> cases hlive

/-- The engine makes a step in which no operation is started, issued or timed out and no thread
begins to collect. An operation may fail when its call has expired. -/
lemma Inv.calm (h : Inv s stage got rest) (hct : Ctl o) (ha : Awake o) (hat : At true o stage')
    (hca : Calm s.ooo o)
    (hst : ∀ u, stage' u = stage u ∨ stage u = .registered ∧ stage' u = .gone ∧ s.expiration u ≤ s.now) :
    Inv { s with ooo := o } stage' got rest where
  ctl := hct
  awake := ha
  stages := hat
  __ := h
  locking t user g hpc := h.locking t user g ((hca.op t).locking user g hpc)
  tags t ht := by
    change (o.op t).tag < _
    rw [(hca.op t).tag]
    refine h.tags t fun hf => ht ?_
    rcases hst t with heq | ⟨hre, -⟩
    · rw [heq, hf]
    · rw [hf] at hre
      cases hre
  sizes r hr := by
    change (o.op r.caller).tag = _ ∧ _
    rw [(hca.op r.caller).tag]
    exact h.sizes r hr
  collected r hr := hca.collects (h.collected r hr)
  live r hr := by
    rcases hst r.caller with heq | ⟨-, -, hla⟩
    · rw [heq]
      exact h.live r hr
    · exact absurd (h.sent r hr).1 (by omega)
  sent r hr := ⟨(h.sent r hr).1, fun g hpc => (h.sent r hr).2 g ((hca.op _).issuing g hpc)⟩
  requests t ht := by
    rcases hst t with heq | ⟨-, hgo, -⟩
    · rw [heq]
      rcases h.requests t ht with ⟨hre, hpc⟩ | hgo
      · exact .inl ⟨hre, fun g hg => hpc g ((hca.op t).issuing g hg)⟩
      · exact .inr hgo
    · exact .inr hgo
  late t ht := by
    rcases ht with hgo | hto
    · rcases hst t with heq | ⟨-, -, hla⟩
      · exact h.late t (.inl (heq ▸ hgo))
      · exact hla
    · exact h.late t (.inr ((hca.op t).timedOut hto))
  reader t u x hpc := h.reader t u x ((hca.op t).collecting u x hpc)
  noReader hno := by
    refine h.noReader fun t u x hpc => ?_
    have hin := (h.stages.1.reader t u x hpc).1
    have hin' : stage' u = .inCollect := by
      rcases hst u with heq | ⟨hre, -⟩
      · rw [heq, hin]
      · rw [hin] at hre
        cases hre
    obtain ⟨r, y, hr⟩ := hat.1.hasReader u hin'
    exact hno r u y hr

lemma Inv.alone {d : Nat} (h : Inv s stage got rest) (hct : Ctl o) (ha : Awake o) (hat : At true o stage')
    (ho : ∀ u ≠ t, o.op u = s.ooo.op u) (hst : ∀ u ≠ t, stage' u = stage u) (hco : o.collects = s.ooo.collects)
    (hres : ∀ r ∈ rest, r.caller ≠ t) (ht : ∀ r ∈ s.replies, r.caller = t → (o.op t).tag = (s.ooo.op t).tag)
    (hlo : ∀ user g, (o.op t).pc = .locking user g → user = none) (ht' : stage' t ≠ .fresh → (o.op t).tag < 2 ^ 64)
    (hreq : t ∈ s.requests → stage' t = .registered ∧ (∀ g, (o.op t).pc ≠ .issuing g) ∨ stage' t = .gone)
    (hla : stage' t = .gone ∨ (o.op t).TimedOut → d ≤ s.now)
    (hpc : ∀ u x, (s.ooo.op t).pc ≠ .collecting u x) (hp' : ∀ u x, (o.op t).pc ≠ .collecting u x) :
    Inv { s with ooo := o, expiration := update s.expiration t d } stage' got rest := by
  have hre : ∀ r u x, (o.op r).pc = .collecting u x ↔ (s.ooo.op r).pc = .collecting u x := by
    intro r u x
    by_cases hr : r = t
    · rw [hr]
      exact iff_of_false (hp' u x) (hpc u x)
    · rw [ho r hr]
  refine ⟨hct, ha, hat, h.whole, fun u user g hu => ?_, h.split, h.callers, fun u hu => ?_, fun r hr => ?_,
    fun r hr => ?_, fun r hr => ?_, fun r hr => ⟨?_, ?_⟩, fun u hu => ?_, fun u hu => ?_, fun r u x hr => ?_,
    fun hn => ?_, h.delivered⟩
  · by_cases hut : u = t
    · exact hlo user g (hut ▸ hu)
    · exact h.locking u user g (ho u hut ▸ hu)
  · by_cases hut : u = t
    · exact hut ▸ ht' (hut ▸ hu)
    rw [hst u hut] at hu
    change (o.op u).tag < _
    rw [ho u hut]
    exact h.tags u hu
  · have hsz := h.sizes r hr
    change (o.op r.caller).tag = _ ∧ _
    by_cases hrt : r.caller = t
    · rw [hrt, ht r hr hrt, ← hrt]
      exact hsz
    · rw [ho _ hrt]
      exact hsz
  · change _ ∈ o.collects
    rw [hco]
    exact h.collected r hr
  · rw [hst _ (hres r hr)]
    exact h.live r hr
  · change s.now < update s.expiration t d r.caller
    rw [update_of_ne (hres r hr)]
    exact (h.sent r hr).1
  · change ∀ g, (o.op r.caller).pc ≠ _
    rw [ho _ (hres r hr)]
    exact (h.sent r hr).2
  · by_cases hut : u = t
    · exact hut ▸ hreq (hut ▸ hu)
    · change stage' u = _ ∧ (∀ g, (o.op u).pc ≠ _) ∨ _
      rw [hst u hut, ho u hut]
      exact h.requests u hu
  · change update s.expiration t d u ≤ s.now
    by_cases hut : u = t
    · rw [hut, update_self]
      exact hla (hut ▸ hu)
    change stage' u = _ ∨ (o.op u).TimedOut at hu
    rw [hst u hut, ho u hut] at hu
    rw [update_of_ne hut]
    exact h.late u hu
  · exact h.reader r u x ((hre r u x).1 hr)
  · exact h.noReader fun r u x hr => hn r u x ((hre r u x).2 hr)

/-! ## The steps of the engine -/

variable {s' : St} {n : Nat} {r : Reply} {l : List Reply} {s : St} {e : Ooo.Ev}

lemma St.engine_eq_some : s.engine e = some s' ↔ ∃ o, Ooo.step s.ooo e = some o ∧ s' = { s with ooo := o } := by
  simp [engine, eq_comm]

open St

lemma Inv.calmStep (h : Inv s stage got rest) (ho : Ooo.step s.ooo e = some o)
    (hor : Orderly true s.ooo e) (hca : Calm s.ooo o)
    (hst : ∀ u, nextStage s.ooo stage e u = stage u ∨
      stage u = .registered ∧ nextStage s.ooo stage e u = .gone ∧ s.expiration u ≤ s.now) :
    Inv { s with ooo := o } (nextStage s.ooo stage e) got rest := by
  obtain ⟨hct, ha⟩ := Ooo.step_ctl ⟨h.ctl, h.awake⟩ ho
  exact h.calm hct ha (Ooo.step_at h.stages h.ctl hor ho) hca hst

lemma gone_or_same (hr : stage t = .registered) (hla : s.expiration t ≤ s.now) (u : Tid) :
    update stage t .gone u = stage u ∨
      stage u = .registered ∧ update stage t .gone u = .gone ∧ s.expiration u ≤ s.now := by
  by_cases hu : u = t
  · rw [hu, update_self]
    exact .inr ⟨hr, rfl, hla⟩
  · exact .inl (update_of_ne hu ..)

section
variable (h : Inv s stage got rest)
include h

lemma Inv.withReading (b : Bool) : Inv { s with reading := b } stage got rest := { h with }

lemma Inv.call {d : Nat} (he : step s (.call t d) = some s') : ∃ stage', Inv s' stage' got rest := by
  simp only [step] at he
  split at he
  · obtain ⟨o, ho, rfl⟩ := engine_eq_some.1 he
    change Ooo.step s.ooo (.start t none true) = some o at ho
    have hor : Orderly true s.ooo (.start t none true) := rfl
    have hat := Ooo.step_at h.stages h.ctl hor ho
    obtain ⟨hct, ha⟩ := Ooo.step_ctl ⟨h.ctl, h.awake⟩ ho
    obtain ⟨hpc, rfl⟩ := Ooo.step_outcome ho
    have hf := h.stages.2 t
    simp only [Ooo.Fits, hpc] at hf
    obtain ⟨hreq, hre⟩ := h.fresh hf.2
    have hop : (s.ooo.goto t (.locking none true)).op t = { s.ooo.op t with pc := .locking none true } :=
      Ooo.St.goto_op_self ..
    refine ⟨stage, h.alone hct ha hat (fun u hu => Ooo.St.goto_op_of_ne _ hu _) (fun _ _ => rfl) rfl
      (fun r hr => hre r (h.split ▸ mem_append_right _ hr)) (fun r hr heq => absurd heq (hre r hr))
      (fun user g hg => ?_) (fun hn => absurd hf.2 hn) (fun hm => absurd hm hreq) (fun hl => ?_)
      (fun u x => by rw [hpc]; exact Ooo.Pc.noConfusion) (fun u x => ?_)⟩
    · rw [hop] at hg
      exact (Ooo.Pc.locking.inj hg).1.symm
    · rcases hl with hgo | ht
      · rw [hf.2] at hgo
        cases hgo
      · rw [hop] at ht
        exact Ooo.Pc.noConfusion ht.1
    · rw [hop]
      exact Ooo.Pc.noConfusion
  · cases he

lemma Inv.issue_orderly (t : Tid) : Orderly true s.ooo (.issue t) := by
  intro user g hpc
  rw [h.locking t user g hpc]
  exact Ooo.St.find_tagFor_none

lemma Inv.issue (ho : Ooo.step s.ooo (.issue t) = some o) (ht : s.ooo.tagFor none < 2 ^ 64) :
    Inv { s with ooo := o } (update stage t .registered) got rest := by
  have hat := Ooo.step_at h.stages h.ctl (h.issue_orderly t) ho
  obtain ⟨hct, ha⟩ := Ooo.step_ctl ⟨h.ctl, h.awake⟩ ho
  obtain ⟨user, g, hpc, -, rfl⟩ := Ooo.step_outcome ho
  obtain rfl := h.locking t user g hpc
  have hf := h.stages.2 t
  simp only [Ooo.Fits, hpc] at hf
  obtain ⟨hreq, hre⟩ := h.fresh hf.2.2
  obtain ⟨hop, hot, hco⟩ := Ooo.St.issueOperation_free (s := s.ooo) (t := t) (g := g) Ooo.St.find_tagFor_none
  have hnew := h.alone (d := s.expiration t) hct ha hat hot (fun u hu => update_of_ne hu ..) hco
    (fun r hr => hre r (h.split ▸ mem_append_right _ hr)) (fun r hr heq => absurd heq (hre r hr))
    (fun user g' hg => by rw [hop] at hg; cases hg) (fun _ => by rw [hop]; exact ht)
    (fun hm => absurd hm hreq) (fun hl => ?_) (fun u x => by rw [hpc]; exact Ooo.Pc.noConfusion)
    (fun u x => by rw [hop]; exact Ooo.Pc.noConfusion)
  · rwa [update_eq_self] at hnew
  rcases hl with hgo | hto
  · simp [nextStage] at hgo
  · rw [hop] at hto
    exact Ooo.Pc.noConfusion hto.1

lemma Inv.lock (he : step s (.lock t) = some s')
    (ht : s.ooo.tagFor none < 2 ^ 64) : ∃ stage', Inv s' stage' got rest := by
  simp only [step, bind_eq_some_iff] at he
  obtain ⟨s1, hs1, he⟩ := he
  obtain ⟨o, ho, rfl⟩ := engine_eq_some.1 hs1
  have h1 := h.issue ho ht
  split at he
  next hla =>
    obtain ⟨o', ho', rfl⟩ := engine_eq_some.1 he
    obtain ⟨g, -, rfl⟩ := Ooo.step_outcome ho'
    refine ⟨_, h1.calmStep ho' (.inl rfl) (.issueDone ..) fun u => ?_⟩
    exact gone_or_same (update_self ..) (le_of_lt hla) u
  · cases he
    exact ⟨_, h1⟩

lemma Inv.unsent {g : Bool} (hpc : (s.ooo.op t).pc = .issuing g) :
    stage t = .registered ∧ t ∉ s.requests ∧ ∀ r ∈ s.replies, r.caller ≠ t := by
  have hf := h.stages.2 t
  simp only [Ooo.Fits, hpc] at hf
  have hre := hf.2.2
  refine ⟨hre, fun hm => ?_, fun r hr heq => ?_⟩
  · rcases h.requests t hm with ⟨-, hn⟩ | hg
    · exact hn g hpc
    · rw [hre] at hg
      cases hg
  · rw [h.split, mem_append] at hr
    rcases hr with hr | hr
    · have hco := (h.stages.1.collects ..).1 (h.collected r hr)
      rw [heq, hre] at hco
      cases hco.1
    · exact (h.sent r hr).2 g (heq ▸ hpc)

lemma Inv.addRequest (hre : stage t = .registered) (hpc : ∀ g, (s.ooo.op t).pc ≠ .issuing g) (hreq : t ∉ s.requests)
    (hrep : ∀ r ∈ s.replies, r.caller ≠ t) : Inv { s with requests := t :: s.requests } stage got rest := by
  refine { h with callers := ?_, requests := fun u hu => ?_ }
  · rw [nodup_middle, nodup_cons]
    refine ⟨fun hm => ?_, h.callers⟩
    rcases mem_append.1 hm with hm | hm
    · obtain ⟨r, hr, heq⟩ := mem_map.1 hm
      exact hrep r hr heq
    · exact hreq hm
  · rcases mem_cons.1 hu with rfl | hu
    · exact .inl ⟨hre, hpc⟩
    · exact h.requests u hu

lemma Inv.write (he : step s (.sent t) = some s') : ∃ stage', Inv s' stage' got rest := by
  simp only [step] at he
  split at he
  · cases he
  obtain ⟨o, ho, rfl⟩ := engine_eq_some.1 he
  change Ooo.step s.ooo (.issued t 0) = some o at ho
  obtain ⟨g, hpc, heq⟩ := Ooo.step_outcome ho
  obtain ⟨hr, hre, hrep⟩ := h.unsent hpc
  have h1 : Inv { s with ooo := o } stage got rest :=
    h.calmStep ho (.inl rfl) (heq ▸ .issueDone 0 g) fun u => .inl rfl
  refine ⟨stage, h1.addRequest hr (fun g' => ?_) hre hrep⟩
  have hf := h.stages.2 t
  simp only [Ooo.Fits, hpc] at hf
  obtain ⟨rfl, -⟩ := hf
  have hfi : s.ooo.find (s.ooo.op t).tag ≠ none := by
    rw [h.stages.1.find_own hr]
    exact some_ne_none t
  rw [heq]
  exact Ooo.St.issueDone_not_issuing hfi g'

lemma Inv.reply {function : Nat} {body : List Iovector.Byte} (he : step s (.reply t function body) = some s')
    (hla : s.now < s.expiration t) (hsi : body.length < 2 ^ 31) : ∃ rest', Inv s' stage got rest' := by
  simp only [step] at he
  obtain ⟨hm, rfl⟩ := ite_some_none_eq_some.1 he
  obtain ⟨hre, hpc⟩ : stage t = .registered ∧ ∀ g, (s.ooo.op t).pc ≠ .issuing g := by
    refine (h.requests t hm).resolve_right fun hg => ?_
    exact absurd (h.late t (.inl hg)) (by omega)
  refine ⟨rest ++ [⟨t, (s.ooo.op t).tag, function, body⟩], { h with
    split := ?_, callers := ?_, sizes := fun r hr => ?_, live := fun r hr => ?_, sent := fun r hr => ?_,
    requests := fun u hu => h.requests u (mem_of_mem_erase hu), reader := fun r u x hr => ?_,
    delivered := ⟨h.delivered.1, h.delivered.2.trans ?_⟩ }⟩
  · change s.replies ++ _ = _
    rw [h.split, append_assoc]
  · have hpe : (s.replies.map Reply.caller ++ s.requests).Perm
        ((s.replies ++ [Reply.mk t (s.ooo.op t).tag function body]).map Reply.caller ++ s.requests.erase t) := by
      rw [map_append, append_assoc]
      exact (perm_cons_erase hm).append_left _
    exact hpe.nodup_iff.1 h.callers
  · rcases mem_append.1 hr with hr | hr
    · exact h.sizes r hr
    · rw [mem_singleton.1 hr]
      exact ⟨rfl, hsi⟩
  · rcases mem_append.1 hr with hr | hr
    · exact h.live r hr
    · rw [mem_singleton.1 hr]
      exact .inl hre
  · rcases mem_append.1 hr with hr | hr
    · exact h.sent r hr
    · rw [mem_singleton.1 hr]
      exact ⟨hla, hpc⟩
  · obtain ⟨r0, l, rfl, hca, hco, hsz⟩ := h.reader r u x hr
    exact ⟨r0, l ++ [_], cons_append .., hca, hco, hsz⟩
  · change (flat s.replies).length ≤ (flat (s.replies ++ _)).length
    rw [flat_append, length_append]
    exact Nat.le_add_right ..

lemma Inv.deliver (he : step s (.deliver n) = some s') : Inv s' stage got rest := by
  simp only [step] at he
  split at he
  next hn =>
    cases he
    exact { h with delivered := ⟨h.delivered.1.trans (Nat.le_add_right ..), hn⟩ }
  · cases he

lemma Inv.recv (he : step s (.recv t) = some s') : ∃ stage', Inv s' stage' got rest := by
  simp only [step] at he
  obtain ⟨hpc, he⟩ := ite_none_right_eq_some.1 he
  split at he
  next hla =>
    obtain ⟨o, ho, rfl⟩ := engine_eq_some.1 he
    obtain ⟨-, heq⟩ := Ooo.step_outcome ho
    have hf := h.stages.2 t
    simp only [Ooo.Fits, hpc.1] at hf
    have hca : Calm s.ooo o := by
      rw [heq, Ooo.St.complete, if_pos (by decide)]
      exact Calm.giveUp.trans (.leave _)
    exact ⟨_, h.calmStep ho rfl hca (gone_or_same hf.2 (le_of_lt hla))⟩
  · cases he
    exact ⟨stage, h.withReading true⟩

lemma Inv.resume (he : step s (.resume t) = some s') : ∃ stage', Inv s' stage' got rest := by
  obtain ⟨o, ho, rfl⟩ := engine_eq_some.1 he
  obtain ⟨f, -, heq⟩ := Ooo.step_outcome ho
  refine ⟨_, h.calmStep ho trivial (heq ▸ .wake f) ?_⟩
  simp only [nextStage]
  split
  next ht =>
    have hfi := h.stages.2 t
    simp only [Ooo.Fits, ht.1] at hfi
    have hr : stage t = .registered := by
      obtain ⟨-, ⟨hr, -⟩ | ⟨-, hf⟩⟩ | ⟨hco, -⟩ := hfi
      · exact hr
      · cases hf
      · exact absurd hco ht.2
    exact gone_or_same hr (h.late t (.inr ht))
  · exact fun u => .inl rfl

lemma Inv.expired (hla : s.expiration t ≤ s.now) (hr : r ∈ rest) :
    r.caller ≠ t := fun heq => absurd (h.sent r hr).1 (by rw [heq]; omega)

lemma Inv.timeout_orderly (hla : s.expiration t ≤ s.now) : Orderly true s.ooo (.timeout t) := by
  refine ⟨rfl, fun r x hr => ?_⟩
  obtain ⟨r0, l, hl, hca, -⟩ := h.reader r t x hr
  exact h.expired hla (by rw [hl]; exact mem_cons_self) hca

lemma Inv.timeout (he : step s (.timeout t) = some s') : ∃ stage', Inv s' stage' got rest := by
  simp only [step] at he
  obtain ⟨hla, he⟩ := ite_none_right_eq_some.1 he
  obtain ⟨o, ho, rfl⟩ := engine_eq_some.1 he
  have hor := h.timeout_orderly hla
  have hat := Ooo.step_at h.stages h.ctl hor ho
  obtain ⟨hct, ha⟩ := Ooo.step_ctl ⟨h.ctl, h.awake⟩ ho
  obtain ⟨hpc, rfl⟩ := Ooo.step_outcome ho
  have hf := h.stages.2 t
  simp only [Ooo.Fits, hpc] at hf
  have hre : stage t = .registered := by
    refine hf.2.resolve_right fun hin => ?_
    obtain ⟨r, x, hr⟩ := h.stages.1.hasReader t hin
    exact hor.2 r x hr
  have hop : ({ s.ooo with wait := s.ooo.wait.erase t }.goto t (.woken true)).op t =
      { s.ooo.op t with pc := .woken true } := Ooo.St.goto_op_self ..
  have hnew := h.alone hct ha hat (fun u hu => Ooo.St.goto_op_of_ne _ hu _)
    (fun _ _ => rfl) rfl (fun r => h.expired hla) (fun r hr heq => by rw [hop])
    (fun user g hg => by rw [hop] at hg; cases hg) (fun hn => by rw [hop]; exact h.tags t hn)
    (fun hm => .inl ⟨hre, fun g => by rw [hop]; exact Ooo.Pc.noConfusion⟩) (fun _ => hla)
    (fun u x => by rw [hpc]; exact Ooo.Pc.noConfusion) (fun u x => by rw [hop]; exact Ooo.Pc.noConfusion)
  rw [update_eq_self] at hnew
  exact ⟨_, hnew⟩

end

/-! ## The reader -/

lemma St.headerRead_pc {hd : Header} (he : s.headerRead t hd = some s') : (s.ooo.op t).pc = .completing := by
  unfold headerRead at he
  split at he
  all_goals
    obtain ⟨o, ho, -⟩ := engine_eq_some.1 he
    exact (Ooo.step_outcome ho).1

section
variable (h : Inv s stage got rest) (hpc : (s.ooo.op t).pc = .completing)
include h hpc

lemma Inv.no_reader : ∀ r u x, (s.ooo.op r).pc ≠ .collecting u x := by
  intro r u x hr
  have hrt : r = t := h.ctl.reader_unique (hr ▸ rfl) (hpc ▸ rfl)
  rw [hrt, hpc] at hr
  cases hr

lemma Inv.nextHeader (hle : s.consumed + Header.SIZE ≤ s.delivered) :
    ∃ r l, rest = r :: l ∧ ((flat s.replies).drop s.consumed).take Header.SIZE = r.header.bytes := by
  have hco := h.noReader (h.no_reader hpc)
  cases rest with
  | nil =>
    have hd := h.delivered.2
    rw [h.split, append_nil] at hd
    simp only [Header.SIZE] at hle
    omega
  | cons r l =>
    refine ⟨r, l, rfl, ?_⟩
    rw [h.split, flat_append, hco, drop_left, flat_cons, Reply.bytes, append_assoc]
    exact take_left' r.header.bytes_length

end

lemma ofBytes_header (ht : r.tag < 2 ^ 64) (hsi : r.body.length < 2 ^ 31) :
    (Header.ofBytes r.header.bytes).magic = Header.MAGIC ∧ (Header.ofBytes r.header.bytes).version = Header.VERSION ∧
      (Header.ofBytes r.header.bytes).size = r.body.length ∧ (Header.ofBytes r.header.bytes).tag = r.tag := by
  rw [Header.ofBytes_bytes]
  refine ⟨leNat_leBytes (show Header.MAGIC < 256 ^ 8 by decide), leNat_leBytes (show Header.VERSION < 256 ^ 4 by decide),
    leNat_leBytes ?_, leNat_leBytes ?_⟩
  · change r.body.length < 256 ^ 4
    omega
  · change r.tag < 256 ^ 8
    omega

lemma Inv.caller_ne {u : Tid} (h : Inv s stage got rest) (hr : r ∈ s.replies) (hu : u ∈ s.requests) : u ≠ r.caller := by
  rintro rfl
  exact (nodup_append.1 h.callers).2.2 _ (mem_map_of_mem hr) _ hu rfl

section
variable (h : Inv s stage got (r :: l))
include h

lemma Inv.next_waits (hpc : (s.ooo.op t).pc = .completing) :
    stage r.caller = .registered ∧ (s.ooo.op r.caller).phase ≠ .beforeIssue ∧ (s.ooo.op r.caller).pc ≠ .woken true := by
  have hr : stage r.caller = .registered := by
    refine (h.live r mem_cons_self).resolve_right fun hin => ?_
    obtain ⟨v, x, hv⟩ := h.stages.1.hasReader _ hin
    exact h.no_reader hpc v _ x hv
  obtain ⟨hla, hi⟩ := h.sent r mem_cons_self
  have hf := h.stages.2 r.caller
  have hph : (s.ooo.op r.caller).phase = .waiting := by
    cases hp : (s.ooo.op r.caller).pc with
    | issuing g => exact absurd hp (hi g)
    | woken =>
      simp only [Ooo.Fits, hp, hr] at hf
      obtain ⟨hw, -⟩ | ⟨-, hco⟩ := hf
      · exact hw
      · cases hco
    | _ => simp_all [Ooo.Fits]
  refine ⟨hr, by rw [hph]; exact Ooo.Phase.noConfusion, fun hw => ?_⟩
  have := h.late r.caller (.inr ⟨hw, by rw [hph]; exact Ooo.Phase.noConfusion⟩)
  omega

lemma Inv.mem_replies : r ∈ s.replies := by
  rw [h.split]
  exact mem_append_right _ mem_cons_self

section
variable (hpc : (s.ooo.op t).pc = .completing)
include hpc

lemma Inv.find_next : s.ooo.find r.tag = some r.caller := by
  rw [← (h.sizes r h.mem_replies).1]
  exact h.stages.1.find_own (h.next_waits hpc).1

lemma Inv.completion_orderly : Orderly true s.ooo (.completion t 0 r.tag) := by
  simp only [Orderly, if_pos (le_refl (0 : Int))]
  exact ⟨r.caller, h.find_next hpc, (h.next_waits hpc).2⟩

lemma Inv.take
    (hle : s.consumed + Header.SIZE ≤ s.delivered) (ho : Ooo.step s.ooo (.completion t 0 r.tag) = some o) :
    Inv { s with ooo := o, consumed := s.consumed + Header.SIZE, reading := false, size := r.body.length }
      (update stage r.caller .inCollect) got (r :: l) := by
  have hre := (h.next_waits hpc).1
  have hfind := h.find_next hpc
  have hat := Ooo.step_at h.stages h.ctl (h.completion_orderly hpc) ho
  simp only [nextStage, if_neg (lt_irrefl (0 : Int)), hfind] at hat
  obtain ⟨hct, ha⟩ := Ooo.step_ctl ⟨h.ctl, h.awake⟩ ho
  obtain ⟨-, heq⟩ := Ooo.step_outcome ho
  simp only [Ooo.St.complete, if_neg (lt_irrefl (0 : Int)), hfind] at heq
  have hopt : o.op t = { s.ooo.op t with pc := .collecting r.caller r.tag } := by
    rw [heq]
    exact Ooo.St.goto_op_self ..
  have hop : ∀ u ≠ t, o.op u = s.ooo.op u := fun u hu => by
    rw [heq]
    exact Ooo.St.goto_op_of_ne _ hu _
  have ht : ∀ u, (o.op u).tag = (s.ooo.op u).tag := fun u => by
    by_cases hu : u = t
    · rw [hu, hopt]
    · rw [hop u hu]
  have hi : ∀ u g, (o.op u).pc = .issuing g → (s.ooo.op u).pc = .issuing g := fun u g hg => by
    by_cases hu : u = t
    · rw [hu, hopt] at hg
      cases hg
    · rwa [hop u hu] at hg
  refine { h with
    ctl := hct, awake := ha, stages := hat, locking := fun u user g hu => ?_, tags := fun u hu => ?_,
    sizes := fun r' hr' => by rw [ht]; exact h.sizes r' hr', collected := fun r' hr' => ?_, live := fun r' hr' => ?_,
    sent := fun r' hr' => ⟨(h.sent r' hr').1, fun g hg => (h.sent r' hr').2 g (hi _ g hg)⟩,
    requests := fun u hu => ?_, late := fun u hu => ?_, reader := fun v u x hv => ?_,
    noReader := fun hn => absurd (by rw [hopt]) (hn t r.caller r.tag), delivered := ⟨hle, h.delivered.2⟩ }
  · by_cases hut : u = t
    · rw [hut, hopt] at hu
      cases hu
    · rw [hop u hut] at hu
      exact h.locking u user g hu
  · rw [ht]
    refine h.tags u fun hf => ?_
    by_cases hur : u = r.caller
    · rw [hur, hre] at hf
      cases hf
    · rw [update_of_ne hur] at hu
      exact hu hf
  · rw [heq]
    exact h.collected r' hr'
  · by_cases hr : r'.caller = r.caller
    · rw [hr, update_self]
      exact .inr rfl
    · rw [update_of_ne hr]
      exact h.live r' hr'
  · have hur : u ≠ r.caller := h.caller_ne h.mem_replies hu
    rw [update_of_ne hur]
    exact (h.requests u hu).imp_left fun hre => ⟨hre.1, fun g hg => hre.2 g (hi u g hg)⟩
  · have hgo : stage u = .gone ∨ (s.ooo.op u).TimedOut := by
      rcases hu with hgo | hto
      · by_cases hur : u = r.caller
        · rw [hur, update_self] at hgo
          cases hgo
        · rw [update_of_ne hur] at hgo
          exact .inl hgo
      · by_cases hut : u = t
        · rw [hut, hopt] at hto
          exact Ooo.Pc.noConfusion hto.1
        · rw [hop u hut] at hto
          exact .inr hto
    exact h.late u hgo
  · by_cases hvt : v = t
    · rw [hvt, hopt] at hv
      refine ⟨r, l, rfl, (Ooo.Pc.collecting.inj hv).1, ?_, rfl⟩
      change s.consumed + _ = _
      rw [h.noReader (h.no_reader hpc)]
    · rw [hop v hvt] at hv
      exact absurd hv (h.no_reader hpc v u x)

end

end

section
variable (h : Inv s stage got rest) (he : step s (.header t) = some s')
include h he

lemma Inv.header_step : ∃ r l o, rest = r :: l ∧ (s.ooo.op t).pc = .completing ∧
    s.reading = true ∧ s.consumed + Header.SIZE ≤ s.delivered ∧ Ooo.step s.ooo (.completion t 0 r.tag) = some o ∧
    s' = { s with ooo := o, consumed := s.consumed + Header.SIZE, reading := false, size := r.body.length } := by
  simp only [step] at he
  obtain ⟨hr, he⟩ := ite_none_right_eq_some.1 he
  have hpc := headerRead_pc he
  obtain ⟨r, l, rfl, hby⟩ := h.nextHeader hpc hr.2
  have ht : r.tag < 2 ^ 64 := by
    rw [← (h.sizes r h.mem_replies).1]
    refine h.tags _ fun hf => ?_
    rw [(h.next_waits hpc).1] at hf
    cases hf
  obtain ⟨hm, hv, hsi, ht'⟩ := ofBytes_header ht (h.sizes r h.mem_replies).2
  rw [hby, headerRead, if_pos ⟨hm, hv⟩, ht', hsi] at he
  obtain ⟨o, ho, hs'⟩ := engine_eq_some.1 he
  exact ⟨r, l, o, rfl, hpc, hr.1, hr.2, ho, hs'⟩

lemma Inv.header : ∃ stage', Inv s' stage' got rest := by
  obtain ⟨r, l, o, rfl, hpc, -, hle, ho, rfl⟩ := h.header_step he
  exact ⟨_, h.take hpc hle ho⟩

end

lemma toInt_of_lt (h : n < 2 ^ 31) : toInt n = n := by
  have hn : (BitVec.ofNat 32 n).toNat = n := by
    rw [BitVec.toNat_ofNat]
    omega
  rw [toInt, BitVec.toInt_eq_toNat_of_lt (by omega), hn]

lemma Inv.collect {x : Nat} (h : Inv s stage got (r :: l))
    (hpc : (s.ooo.op t).pc = .collecting r.caller x) (hle : s.consumed + r.body.length ≤ s.delivered)
    (ho : Ooo.step s.ooo (.collected t r.body.length) = some o) :
    Inv { s with ooo := o, consumed := s.consumed + r.body.length } (update stage r.caller .collected)
      (got ++ [r]) l := by
  have hor : Orderly true s.ooo (.collected t r.body.length) := trivial
  have hat := Ooo.step_at h.stages h.ctl hor ho
  simp only [nextStage, hpc] at hat
  obtain ⟨hct, ha⟩ := Ooo.step_ctl ⟨h.ctl, h.awake⟩ ho
  obtain ⟨u, y, hp', heq⟩ := Ooo.step_outcome ho
  obtain ⟨rfl, rfl⟩ := Ooo.Pc.collecting.inj (hp'.symm.trans hpc)
  have hca : Calm s.ooo o := heq ▸ .collect ..
  have hin : stage r.caller = .inCollect := (h.stages.1.reader t _ _ hpc).1
  have hsp : s.replies = (got ++ [r]) ++ l := by rw [h.split, append_assoc, singleton_append]
  have hne : ∀ r' ∈ l, r'.caller ≠ r.caller := by
    intro r' hr' heq
    have hn := (nodup_append.1 h.callers).1
    rw [h.split, map_append, map_cons, nodup_middle, nodup_cons] at hn
    exact hn.1 (mem_append_right _ (heq ▸ mem_map_of_mem hr'))
  have hno : ∀ v u x, (o.op v).pc ≠ .collecting u x := by
    intro v u x hv
    have hst := (hat.1.reader v u x hv).1
    by_cases hu : u = r.caller
    · rw [hu, update_self] at hst
      cases hst
    have hv' := (hca.op v).collecting u x hv
    have hvt : v = t := h.ctl.reader_unique (by rw [hv']; rfl) (hpc ▸ rfl)
    rw [hvt, hpc] at hv'
    exact hu (Ooo.Pc.collecting.inj hv').1.symm
  obtain ⟨-, -, -, -, hco, -⟩ := h.reader t _ _ hpc
  refine { h with
    ctl := hct, awake := ha, stages := hat
    locking := fun u user g hu => h.locking u user g ((hca.op u).locking user g hu), split := hsp
    tags := fun u hu => ?_, sizes := fun r' hr' => by rw [(hca.op _).tag]; exact h.sizes r' hr'
    collected := fun r' hr' => ?_, live := fun r' hr' => ?_
    sent := fun r' hr' => ⟨(h.sent r' (mem_cons_of_mem _ hr')).1, fun g hg =>
      (h.sent r' (mem_cons_of_mem _ hr')).2 g ((hca.op _).issuing g hg)⟩
    requests := fun u hu => ?_, late := fun u hu => ?_, reader := fun v u x hv => absurd hv (hno v u x)
    noReader := fun _ => ?_, delivered := ⟨hle, h.delivered.2⟩ }
  · rw [(hca.op u).tag]
    refine h.tags u fun hf => ?_
    by_cases hur : u = r.caller
    · rw [hur, hin] at hf
      cases hf
    · rw [update_of_ne hur] at hu
      exact hu hf
  · rcases mem_append.1 hr' with hr' | hr'
    · exact hca.collects (h.collected r' hr')
    · rw [mem_singleton.1 hr', heq, Ooo.St.collect_collects]
      exact mem_append_right _ mem_cons_self
  · rw [update_of_ne (hne r' hr')]
    exact h.live r' (mem_cons_of_mem _ hr')
  · rw [update_of_ne (h.caller_ne h.mem_replies hu)]
    exact (h.requests u hu).imp_left fun hr => ⟨hr.1, fun g hg => hr.2 g ((hca.op u).issuing g hg)⟩
  · refine h.late u (hu.imp (fun hgo => ?_) (hca.op u).timedOut)
    by_cases hur : u = r.caller
    · rw [hur, update_self] at hgo
      cases hgo
    · rwa [update_of_ne hur] at hgo
  · change s.consumed + _ = _
    rw [hco, flat_append, length_append, flat_cons, length_append, Reply.bytes_length]
    simp [flat]
    omega

lemma Inv.body (h : Inv s stage got rest) (he : step s (.body t) = some s') :
    ∃ stage' got' rest', Inv s' stage' got' rest' := by
  simp only [step] at he
  obtain ⟨hle, he⟩ := ite_none_right_eq_some.1 he
  obtain ⟨o, ho, rfl⟩ := engine_eq_some.1 he
  change Ooo.step s.ooo (.collected t (toInt s.size)) = some o at ho
  obtain ⟨u, x, hpc, -⟩ := Ooo.step_outcome ho
  obtain ⟨r, l, rfl, rfl, -, hsi⟩ := h.reader t u x hpc
  rw [hsi] at hle ho
  rw [toInt_of_lt (h.sizes r h.mem_replies).2] at ho
  have hnew := h.collect hpc hle ho
  rw [← hsi] at hnew
  exact ⟨_, _, _, hnew⟩

lemma Inv.not_bodyFails (h : Inv s stage got rest) : step s (.bodyFails t) = none := by
  simp only [step]
  split
  next u x hpc =>
    obtain ⟨r, l, rfl, rfl, -⟩ := h.reader t u x hpc
    have hla := (h.sent r mem_cons_self).1
    rw [if_neg]
    rintro (hbr | ⟨hex, -⟩)
    · rw [h.whole] at hbr
      cases hbr
    · omega
  · rfl

/-! ## When no thread can run -/

lemma Inv.first_arrived (h : Inv s stage got rest) (hr : r ∈ rest) (ha : Arrived s r) :
    ∃ r0 l, rest = r0 :: l ∧ (flat got).length + r0.bytes.length ≤ s.delivered := by
  obtain ⟨l1, l2, hl, hle⟩ := ha
  rw [flat_append, length_append] at hle
  rw [h.split] at hl
  obtain ⟨m, rfl, rfl⟩ | ⟨m, rfl, hm⟩ := append_eq_append_iff.1 hl
  · rw [flat_append, length_append] at hle
    cases m with rw [flat_cons, length_append] at hle
    | nil =>
      exact ⟨r, l2, rfl, by omega⟩
    | cons r0 m =>
      exact ⟨r0, m ++ r :: l2, rfl, by omega⟩
  · cases m with
    | nil =>
      rw [flat_cons, length_append] at hle
      rw [append_nil]
      exact ⟨r, l2, hm.symm, by omega⟩
    | cons r0 m =>
      -- a reply that was read is not in `rest`
      obtain ⟨rfl, -⟩ := cons.inj hm
      have hn := (nodup_append.1 h.callers).1
      rw [h.split, map_append] at hn
      have hg : r ∈ l1 ++ r :: m := mem_append_right _ mem_cons_self
      exact absurd rfl ((nodup_append.1 hn).2.2 _ (mem_map_of_mem hg) _ (mem_map_of_mem hr))

lemma not_completing_of_idle (hi : Idle s) (hle : s.consumed + Header.SIZE ≤ s.delivered) :
    (s.ooo.op t).pc ≠ .completing := by
  intro hpc
  have hen : ∀ (s' : St) (ret : Int) (x : Nat), s'.ooo = s.ooo → s'.engine (.completion t ret x) ≠ none := by
    intro s' ret x heq
    simp [engine, Ooo.step, heq, hpc]
  cases hr : s.reading with
  | false =>
    have hre := (hi t).2.1
    simp only [step, hpc, hr, and_self, if_true] at hre
    split at hre
    · exact hen _ _ _ rfl hre
    · cases hre
  | true =>
    have hh := (hi t).2.2.1
    simp only [step, hr, hle, and_self, if_true, headerRead] at hh
    split at hh
    all_goals
      refine hen _ _ _ ?_ hh
      rfl

lemma Inv.idle (h : Inv s stage got rest) (hi : Idle s) (hr : r ∈ rest) : ¬ Arrived s r := by
  intro ha
  obtain ⟨r0, l, rfl, hle⟩ := h.first_arrived hr ha
  rw [Reply.bytes_length] at hle
  have hw : ∀ u f, (s.ooo.op u).pc ≠ .woken f := by
    intro u f hpc
    have hre := (hi u).2.2.2.2
    simp [step, engine, Ooo.step, hpc] at hre
  have hco : ∀ t u x, (s.ooo.op t).pc ≠ .collecting u x := by
    intro t u x hpc
    obtain ⟨r1, l1, heq, -, hcon, hsi⟩ := h.reader t u x hpc
    obtain ⟨rfl, rfl⟩ := cons.inj heq
    have hbo := (hi t).2.2.2.1
    simp only [step] at hbo
    rw [if_pos (by omega)] at hbo
    simp [engine, Ooo.step, hpc] at hbo
  have hcon := h.noReader hco
  have hcom : ∀ t, (s.ooo.op t).pc ≠ .completing := fun t => not_completing_of_idle hi (by omega)
  have hR : s.ooo.mutexR = none := by
    refine eq_none_iff_forall_ne_some.2 fun v hv => ?_
    have hk := (h.ctl.reader v).1 hv
    cases hpc : (s.ooo.op v).pc with
    | completing => exact hcom v hpc
    | collecting u x => exact hco v u x hpc
    | _ =>
      rw [hpc] at hk
      cases hk
  have hwa : s.ooo.wait = [] := by
    by_contra hn
    rcases h.awake hn with hR' | ⟨u, f, hu⟩
    · exact hR' hR
    · exact hw u f hu
  -- so the call of the reply does not wait for it
  have hf := h.stages.2 r.caller
  have his := (h.sent r hr).2
  have hlive := h.live r hr
  cases hpc : (s.ooo.op r.caller).pc with
  | asleep =>
    have hm := (h.ctl.queue r.caller).2 (hpc ▸ rfl)
    rw [hwa] at hm
    cases hm
  | woken f => exact hw _ f hpc
  | completing => exact hcom _ hpc
  | collecting u x => exact hco _ u x hpc
  | issuing g => exact his g hpc
  | _ => rcases hlive with hlive | hlive <;> simp [Ooo.Fits, hpc, hlive] at hf

lemma Inv.tick (h : Inv s stage got rest) (he : step s (.tick n) = some s') (hi : Idle s)
    (hla : ∀ r ∈ s.replies, ¬ Arrived s r → s.now + n < s.expiration r.caller) : Inv s' stage got rest := by
  cases he
  refine { h with
    sent := fun r hr => ⟨hla r ?_ (h.idle hi hr), (h.sent r hr).2⟩
    late := fun t ht => (h.late t ht).trans (Nat.le_add_right ..) }
  rw [h.split]
  exact mem_append_right _ hr

/-! ## Every call whose reply arrives -/

lemma step_inv {e : Ev} (h : ∃ stage got rest, Inv s stage got rest) (ho : Undisturbed s e)
    (he : step s e = some s') : ∃ stage got rest, Inv s' stage got rest := by
  obtain ⟨stage, got, rest, h⟩ := h
  cases e with
  | call =>
    obtain ⟨stage', h'⟩ := h.call he
    exact ⟨stage', got, rest, h'⟩
  | lock =>
    obtain ⟨stage', h'⟩ := h.lock he ho
    exact ⟨stage', got, rest, h'⟩
  | sent =>
    obtain ⟨stage', h'⟩ := h.write he
    exact ⟨stage', got, rest, h'⟩
  | sendFails | headerFails => exact ho.elim
  | reply =>
    obtain ⟨rest', h'⟩ := h.reply he ho.1 ho.2
    exact ⟨stage, got, rest', h'⟩
  | deliver => exact ⟨stage, got, rest, h.deliver he⟩
  | recv =>
    obtain ⟨stage', h'⟩ := h.recv he
    exact ⟨stage', got, rest, h'⟩
  | header =>
    obtain ⟨stage', h'⟩ := h.header he
    exact ⟨stage', got, rest, h'⟩
  | body => exact h.body he
  | bodyFails =>
    rw [h.not_bodyFails] at he
    cases he
  | timeout =>
    obtain ⟨stage', h'⟩ := h.timeout he
    exact ⟨stage', got, rest, h'⟩
  | resume =>
    obtain ⟨stage', h'⟩ := h.resume he
    exact ⟨stage', got, rest, h'⟩
  | tick => exact ⟨stage, got, rest, h.tick he ho.1 ho.2⟩

end

lemma init_inv : Inv {} (fun _ => .fresh) [] [] where
  ctl := Ooo.init_ctl.1
  awake := Ooo.init_ctl.2
  stages := Ooo.init_at
  whole := rfl
  locking _ _ _ h := by cases h
  split := rfl
  callers := nodup_nil
  tags _ h := absurd rfl h
  sizes _ h := by cases h
  collected _ h := by cases h
  live _ h := by cases h
  sent _ h := by cases h
  requests _ h := by cases h
  late _ _ := Nat.zero_le _
  reader _ _ _ h := by cases h
  noReader _ := rfl
  delivered := ⟨le_rfl, Nat.zero_le _⟩

end Photon.Rpc.Stub
