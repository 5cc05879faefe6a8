import Papper.Lib.WaitFree
import Papper.Queue.Room
import Papper.System.Backend
import Papper.System.Drain

/-!
# Logging waits for nobody

A thread that has registered logs without waiting: from the call of `reserve_write` on it is
through after one step for each byte of the event and three more, whatever the backend and the
other threads do between them, and it can always take the next one.  It gives its event up only
where the queue has no room for it, which the reload of the read position decides exactly; so an
event that fits when the call begins is never dropped.

## Main definitions

* `InCall` — where a log call is.
* `Returned` — what has become of its event.
* `exec_waitFree` — every log call of a thread that has registered.
-/

namespace Papper.System

open Transition

variable {P : Program} {ι κ : Type} {s s' t : State P ι κ} {i j : ι}

/-! ## What others leave of a thread -/

/-- What the steps of others leave of a thread. -/
structure Stays (t t' : Thread P κ) : Prop where
  pc : t'.pc = t.pc
  accepted : t'.accepted = t.accepted
  drains : Queue.Drains t.context.q t'.context.q

theorem Stays.refl (t : Thread P κ) : Stays t t := ⟨rfl, rfl, Queue.Drains.refl _⟩

theorem stays_setQueue {t : Thread P κ} {q : Queue.Machine}
    (hdrains : Queue.Drains t.context.q q) : Stays t (t.setQueue q) := ⟨rfl, rfl, hdrains⟩

/-! ## A log call -/

/-- Where a log call is, with so many of its steps to go. -/
inductive LogPlace (p : Push P) (t : Thread P κ) : ℕ → Prop
  | reserve (hpc : t.pc = .reserve p) : LogPlace p t (p.event.message.size + 3)
  | reload (hpc : t.pc = .pushing p) (hproducer : t.context.q.producer = .reload p.event.message) :
      LogPlace p t (p.event.message.size + 2)
  | filling {res : WriteReservation} {k : ℕ} (hpc : t.pc = .pushing p)
      (hproducer : t.context.q.producer = .filling p.event.message res k)
      (hk : k ≤ p.event.message.size) : LogPlace p t (p.event.message.size - k + 1)

/-- A thread is in a log call that began when it was `t₀`. -/
structure InCall (t₀ : Thread P κ) (p : Push P) (n : ℕ) (t : Thread P κ) : Prop where
  accepted : t.accepted = t₀.accepted
  fits : t₀.context.q.Fits p.event.message → t.context.q.Fits p.event.message
  place : LogPlace p t n

/-- The call has returned: the event was accepted, or it did not fit, neither when it was
dropped nor when the call began. -/
structure Returned (t₀ : Thread P κ) (p : Push P) (t : Thread P κ) : Prop where
  idle : t.pc.isIdle = true
  outcome : t.accepted = t₀.accepted ++ [p] ∨
    t.accepted = t₀.accepted ∧ ¬ t.context.q.Fits p.event.message ∧
      ¬ t₀.context.q.Fits p.event.message

variable {t₀ : Thread P κ} {p : Push P} {n : ℕ}

theorem LogPlace.not_idle {t : Thread P κ} (h : LogPlace p t n) : t.pc.isIdle = false := by
  cases h with
  | reserve hpc | reload hpc | filling hpc => rw [hpc]; rfl

theorem LogPlace.not_registering {t : Thread P κ} (h : LogPlace p t n)
    (request : Option (Request P κ)) : t.pc ≠ .registering request := by
  cases h with
  | reserve hpc | reload hpc | filling hpc => rw [hpc]; simp

theorem LogPlace.pos {t : Thread P κ} (h : LogPlace p t n) : 0 < n := by
  cases h <;> exact Nat.succ_pos _

theorem InCall.stays {t t' : Thread P κ} (h : InCall t₀ p n t) (hstays : Stays t t') :
    InCall t₀ p n t' where
  accepted := hstays.accepted.trans h.accepted
  fits := fun hfits => hstays.drains.fits (h.fits hfits)
  place := by
    have hpc := hstays.pc
    have hproducer := hstays.drains.producer
    cases h.place with
    | reserve hold => exact .reserve (hpc.trans hold)
    | reload hold hreload => exact .reload (hpc.trans hold) (hproducer.trans hreload)
    | filling hold hfilling hk => exact .filling (hpc.trans hold) (hproducer.trans hfilling) hk

/-! ## Who leaves it alone -/

variable [DecidableEq ι]

theorem stays_update {t : Thread P κ} (h : Stays (s.threads j) t) (i : ι) :
    Stays (s.threads i) (Function.update s.threads j t i) := by
  by_cases hi : i = j
  · subst hi
    rw [Function.update_self]
    exact h
  · rw [Function.update_of_ne hi]
    exact Stays.refl _

/-- A thread that is not the one that takes the step. -/
theorem stays_of_ne {t : Thread P κ} (h : i ≠ j) :
    Stays (s.threads i) (Function.update s.threads j t i) := by
  rw [Function.update_of_ne h]
  exact Stays.refl _

/-- The backend at a context takes events out of its queue. -/
theorem stays_of_visitStep {v : Visit} {localTime : ℤ}
    (hstep : visitStep s j v localTime = some s') (i : ι) :
    Stays (s.threads i) (s'.threads i) := by
  cases v with
  | start =>
      obtain ⟨q', hq, rfl⟩ := Option.map_eq_some_iff.mp hstep
      exact stays_update (stays_setQueue (Queue.drains_of_consumes rfl hq)) i
  | reload =>
      obtain ⟨q', hq, rfl⟩ := Option.map_eq_some_iff.mp hstep
      exact stays_update (stays_setQueue (Queue.drains_of_consumes rfl hq)) i
  | process res =>
      cases hread : readEvent P (s.threads j).context.q.q.buffer res.buffer with
      | none =>
          simp only [visitStep, hread, Option.some.injEq] at hstep
          exact hstep ▸ Stays.refl _
      | some event =>
          cases hmessage : event.message with
          | none =>
              simp only [visitStep, hread, hmessage, Option.some.injEq] at hstep
              exact hstep ▸ Stays.refl _
          | some message =>
              simp only [visitStep, hread, hmessage, Option.some.injEq] at hstep
              let q := (s.threads j).context.q.readBytes res event.header.totalEventSize.toNat
              have hdrains : Queue.Drains (s.threads j).context.q q :=
                ⟨rfl, rfl, List.prefix_rfl, rfl⟩
              exact hstep ▸ stays_update (stays_setQueue hdrains) i
  | level event message =>
      have hthreads : (processEvent s j event message localTime).threads = s.threads := by
        simp only [processEvent]
        split
        · rfl
        · split <;> rfl
      simp only [visitStep, Option.some.injEq] at hstep
      rw [← hstep, hthreads]
      exact Stays.refl _
  | commit sizeRead =>
      obtain ⟨q', hq, hend⟩ := Option.bind_eq_some_iff.mp hstep
      obtain ⟨list', -, rfl⟩ := Option.map_eq_some_iff.mp hend
      exact stays_update (stays_setQueue (Queue.drains_of_consumes rfl hq)) i
  | alive =>
      obtain ⟨list', -, rfl⟩ := Option.map_eq_some_iff.mp hstep
      exact Stays.refl _

theorem stays_of_backendStep {localTime : ℤ} (hstep : backendStep s localTime = some s') (i : ι) :
    Stays (s.threads i) (s'.threads i) := by
  cases backendActs_of_backendStep hstep with
  | visit hloop hvisit hstep => exact stays_of_visitStep hstep i
  | _ => exact Stays.refl _

variable [DecidableEq κ]

/-- The step is one of a thread that is not in `register_thread`. -/
def Action.isThread (i : ι) : Action P ι κ → Bool
  | .thread j => decide (j = i)
  | _ => false

/-- **A thread in a log call is left alone by the others.** -/
theorem stays_of_step {a : Action P ι κ} (hpc : (s.threads i).pc.isIdle = false)
    (ha : a.isThread i = false) (hstep : System.step s a = some s') :
    Stays (s.threads i) (s'.threads i) := by
  have hne : ∀ {j : ι}, (s.threads j).pc.isIdle = true → i ≠ j := by
    rintro j hidle rfl
    rw [hpc] at hidle
    cases hidle
  cases acts_of_step hstep with
  | initThread hidle hhandler hconstruct =>
      obtain ⟨-, rfl⟩ := construct_eq_some hconstruct
      exact stays_of_ne (hne hidle)
  | log hidle hlog =>
      rcases log_eq_some hlog with ⟨-, -, hconstruct⟩ | ⟨-, cached, rfl⟩
      · obtain ⟨-, rfl⟩ := construct_eq_some hconstruct
        exact stays_of_ne (hne hidle)
      · exact stays_of_ne (hne hidle)
  | kill hidle hhandler => exact stays_of_ne (hne hidle)
  | @thread j s' hthread =>
      have hij : i ≠ j := by
        rintro rfl
        simp [Action.isThread] at ha
      cases threadActs_of_threadStep hthread <;> exact stays_of_ne hij
  | @setSink j file =>
      let t : Thread P κ := { s.threads j with sinkStamp := s.sinkCalls + 1 }
      exact stays_update (t := t) ⟨rfl, rfl, Queue.Drains.refl _⟩ i
  | @setFormatter j formatter =>
      let t : Thread P κ := { s.threads j with formatterStamp := s.formatterCalls + 1 }
      exact stays_update (t := t) ⟨rfl, rfl, Queue.Drains.refl _⟩ i
  | initAgain | newNode | registrar | setLevel | shutdown => exact Stays.refl _
  | backend hbackend => exact stays_of_backendStep hbackend i

/-! ## The steps of the call -/

/-- **A step of the call.** -/
theorem InCall.threadStep (h : InCall t₀ p n (s.threads i)) (hthread : ThreadFlow (s.threads i))
    (hstep : threadStep s i = some s') :
    ∃ m < n, Returned t₀ p (s'.threads i) ∨ InCall t₀ p m (s'.threads i) := by
  obtain ⟨k, hinv⟩ := hthread.queue
  have hself : ∀ t : Thread P κ, ((s.useQueue i).setThread i t).threads i = t :=
    fun _ => Function.update_self _ _ _
  cases threadActs_of_threadStep hstep with
  | initialized hpc | registered hpc => exact absurd hpc (h.place.not_registering _)
  | @reserve p' q hpc hq =>
      rw [hself]
      cases h.place with
      | reload hold | filling hold => rw [hpc] at hold; cases hold
      | reserve hold =>
          obtain rfl : p = p' := by
            rw [hpc] at hold
            injection hold with heq
            exact heq.symm
          have hidle : (s.threads i).context.q.producer = .idle := by
            have hproducing := hthread.producing
            rw [hpc] at hproducing
            exact hproducing.1
          obtain ⟨q', hq', hasks, hproducer⟩ := hinv.reserveWrite_enabled hidle p.event.message
          obtain rfl := Option.some.inj (hq.symm.trans hq')
          have hfits : t₀.context.q.Fits p.event.message → q.Fits p.event.message :=
            fun hfits => hasks.fits_iff.mpr (h.fits hfits)
          rcases hproducer with hreload | ⟨-, res, hfilling⟩
          · exact ⟨_, Nat.lt_succ_self _, .inr ⟨h.accepted, hfits, .reload rfl hreload⟩⟩
          · exact ⟨_, by omega, .inr ⟨h.accepted, hfits, .filling rfl hfilling (Nat.zero_le _)⟩⟩
  | @reload p' m q hpc hproducer hq =>
      rw [hself]
      cases h.place with
      | reserve hold => rw [hpc] at hold; cases hold
      | filling hold hfilling => rw [hproducer] at hfilling; cases hfilling
      | reload hold hreload =>
          obtain ⟨q', hq', hasks, hcases⟩ := hinv.loadR_latest hreload
          obtain rfl := Option.some.inj (hq.symm.trans hq')
          rcases hcases with ⟨hidle, hfull⟩ | ⟨hroom, res, hfilling⟩
          · -- not enough queue space
            refine ⟨0, by omega, .inl ⟨by simp [hidle, ThreadPc.isIdle], .inr ⟨h.accepted, ?_, ?_⟩⟩⟩
            · exact fun hfits => hfull (hasks.fits_iff.mp hfits)
            · exact fun hfits => hfull (h.fits hfits)
          · have hpush : p' = p := by
              rw [hpc] at hold
              injection hold
            refine ⟨p.event.message.size + 1, by omega, .inr ⟨h.accepted, ?_, ?_⟩⟩
            · exact fun _ => hasks.fits_iff.mpr hroom
            · exact .filling (k := 0) (by simp [hfilling, hpush]) hfilling (Nat.zero_le _)
  | @commit p' m res q hpc hproducer hq =>
      rw [hself]
      have hpush : p' = p := by
        cases h.place with
        | reserve hold => rw [hpc] at hold; cases hold
        | reload hold | filling hold => rw [hpc] at hold; cases hold; rfl
      refine ⟨0, ?_, .inl ⟨rfl, .inl ?_⟩⟩
      · cases h.place <;> omega
      · rw [hpush, h.accepted]
  | @writeByte p' m res k' q hpc hproducer hk hq =>
      rw [hself]
      cases h.place with
      | reserve hold => rw [hpc] at hold; cases hold
      | reload hold hreload => rw [hproducer] at hreload; cases hreload
      | @filling res' k'' hold hfilling hle =>
          rw [hproducer] at hfilling
          injection hfilling with hm hres hkk
          subst hm hres hkk
          obtain ⟨-, -, hnext⟩ := Queue.writeByte_cases hproducer hq
          have hasks := Queue.asks_of_writeByte hq
          refine ⟨p.event.message.size - (k' + 1) + 1, by omega, .inr ⟨h.accepted, ?_, ?_⟩⟩
          · exact fun hfits => hasks.fits_iff.mpr (h.fits hfits)
          · exact .filling hold hnext (by omega)

/-- **It can always be taken.** -/
theorem InCall.enabled (h : InCall t₀ p n (s.threads i)) (hthread : ThreadFlow (s.threads i)) :
    ∃ s', System.threadStep s i = some s' := by
  obtain ⟨k, hinv⟩ := hthread.queue
  cases h.place with
  | reserve hpc =>
      have hproducing := hthread.producing
      rw [hpc] at hproducing
      obtain ⟨q, hq, -⟩ := hinv.reserveWrite_enabled hproducing.1 p.event.message
      simp [System.threadStep, hpc, hq]
  | reload hpc hproducer =>
      obtain ⟨q, hq, -⟩ := hinv.loadR_latest hproducer
      simp [System.threadStep, hpc, hproducer, hq]
  | @filling res k hpc hproducer hk =>
      by_cases hlast : k = p.event.message.size
      · simp [System.threadStep, hpc, hproducer, hlast, Queue.step]
      · have hbyte : ∃ b, p.event.message.bytes[k]? = some b :=
          ⟨_, List.getElem?_eq_getElem (lt_of_le_of_ne hk hlast)⟩
        obtain ⟨b, hb⟩ := hbyte
        simp [System.threadStep, hpc, hproducer, hlast, Queue.step, hb]

/-- **Logging waits for nobody.**  In every run that goes on from the beginning of a log call of
a thread that has registered, whatever the backend and the other threads do and in whatever
order, the call has returned after at most as many steps of its own as its event has bytes and
three more, or it has not made so many and its next step is enabled.  The event is accepted,
unless it did not fit in the queue when the thread gave up, nor when the call began. -/
theorem exec_waitFree {as bs : List (Action P ι κ)} (has : Along Client step init as)
    (hs : exec step init as = some s) (hpc : (s.threads i).pc = .reserve p)
    (hbs : Along Client step s bs) (ht : exec step s bs = some t) :
    (∃ us vs u, bs = us ++ vs ∧
        us.countP (Action.isThread i) ≤ p.event.message.size + 3 ∧ exec step s us = some u ∧
        Returned (s.threads i) p (u.threads i)) ∨
      bs.countP (Action.isThread i) < p.event.message.size + 3 ∧
        ∃ t', step t (.thread i) = some t' := by
  have hsane := (sane_exec has hs).1
  have hwait : WaitFree Client (Action.isThread i) step
      (fun n u => Sane u ∧ InCall (s.threads i) p n (u.threads i))
      (fun u => Returned (s.threads i) p (u.threads i)) := by
    constructor
    · rintro n u a u' ⟨hu, hlogs⟩ hclient hstep ha
      obtain rfl : a = .thread i := by
        cases a with
        | thread j => simp only [Action.isThread, decide_eq_true_eq] at ha; rw [ha]
        | _ => cases ha
      obtain ⟨m, hm, hreturned | hlogs'⟩ := hlogs.threadStep (hu.flow.thread i) hstep
      · exact ⟨m, hm, .inl hreturned⟩
      · exact ⟨m, hm, .inr ⟨hu.step hclient hstep, hlogs'⟩⟩
    · rintro n u a u' ⟨hu, hlogs⟩ hclient hstep ha
      exact ⟨hu.step hclient hstep,
        hlogs.stays (stays_of_step hlogs.place.not_idle ha hstep)⟩
  rcases hwait.exec ⟨hsane, rfl, id, .reserve hpc⟩ hbs ht with hreturned | ⟨m, hm, hu, hlogs⟩
  · exact .inl hreturned
  · refine .inr ⟨?_, hlogs.enabled (hu.flow.thread i)⟩
    have hpos := hlogs.place.pos
    omega

/-- A thread has logged twice, and its queue has no room for the event it is about to log. -/
def crowdedRun : List (Action helloProgram ℕ ℕ) :=
  firstLogRun 0 100 8192 ++ [.log 0 (hello 0) 64 8192] ++ pushRun 0 ++ [.log 0 (hello 1) 64 8192]

/-- It asks, loads the read position, and drops the event, with the backend in between. -/
def dropRun : List (Action helloProgram ℕ ℕ) := [.thread 0] ++ backendRun 5 ++ [.thread 0]

theorem exec_waitFree_dropRun :
    ∃ s t p, exec step init crowdedRun = some s ∧ exec step s dropRun = some t ∧
      (t.threads 0).pc.isIdle = true ∧ (t.threads 0).accepted.length = 2 ∧
      ((∃ us vs u, dropRun = us ++ vs ∧
          us.countP (Action.isThread 0) ≤ p.event.message.size + 3 ∧ exec step s us = some u ∧
          Returned (s.threads 0) p (u.threads 0)) ∨
        dropRun.countP (Action.isThread 0) < p.event.message.size + 3 ∧
          ∃ t', step t (.thread 0) = some t') := by
  have hrun : ∃ s t p, exec step init crowdedRun = some s ∧ exec step s dropRun = some t ∧
      (s.threads 0).pc = .reserve p ∧ (t.threads 0).pc.isIdle = true ∧
      (t.threads 0).accepted.length = 2 ∧ Along Client step s dropRun :=
    ⟨_, _, _, rfl, rfl, rfl, rfl, rfl, by decide +kernel⟩
  obtain ⟨s, t, p, hs, ht, hpc, hidle, haccepted, hclient⟩ := hrun
  exact ⟨s, t, p, hs, ht, hidle, haccepted,
    exec_waitFree (by decide +kernel) hs hpc hclient ht⟩

end Papper.System
