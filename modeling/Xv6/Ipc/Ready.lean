import Xv6.Ipc.Pipe

/-!
# Ipc/Ready — nobody sleeps on a ready pipe, unless a writer was killed in the middle

A process may sleep on `&pi->nread` only over an empty pipe with a writer, and on `&pi->nwrite` only
over a full one with a reader.  Every exit of the loops calls `wakeup` but that of a `pipewrite`
that finds itself killed: taken over a sleeping reader, it is the only way to lose a wakeup.
-/

namespace Xv6

open Machinery Function List Option

namespace PipeSys

variable {n : ℕ}

/-- What allows a process to sleep on `c`. -/
def Settled (s : PipeSys n) : PipeChan → Prop
  | .nread => s.nread = s.nwrite ∧ s.writeopen = true
  | .nwrite => s.full = true ∧ s.readopen = true

/-- **With `pi->lock` free, whoever sleeps and has not been killed has reason to.** -/
def Ready (s : PipeSys n) : Prop :=
  s.lk = none → ∀ p c, s.killed p = false → s.sleepsOn c p = true → s.Settled c

/-- `p` sleeps on `c`, or is about to and will not look again. -/
def WaitsOn (s : PipeSys n) (c : PipeChan) (p : Fin n) : Prop :=
  (∃ loop, s.pc p = .dozing c loop) ∨ s.sleepsOn c p = true

/-- A writer that has put bytes in does not leave a waiting reader without a `wakeup`. -/
def Courteous (s : PipeSys n) : PipeOp n → Prop
  | .go p _ => s.pc p = .writeFail true → ∀ q, s.killed q = false → ¬ s.WaitsOn .nread q
  | _ => True

end PipeSys

namespace PipePc

variable {n : ℕ}

/-- A process at this place with `pi->lock` held will wake `q` if it sleeps on `c`. -/
def Pends (c : PipeChan) (q : Fin n) : PipePc n → Prop
  | .write _ _ fresh | .writeTest _ _ fresh | .writeFail fresh => c = .nread ∧ fresh = true
  | .copy _ _ => c = .nwrite
  | .wakeup c' scan _ => c = c' ∧ q ∈ scan
  | _ => False

/-- What the place of a process says about `pi->lock`, its own lock and the pipe. -/
def Proper (holds : Prop) (readopen : Bool) (settled : PipeChan → Prop) (lock : PLock)
    (chan : Option PipeChan) : PipePc n → Prop
  | .outside | .woken _ => ¬ holds ∧ lock = .free ∧ chan = none
  | .write _ _ fresh | .writeFail fresh =>
    holds ∧ lock = .free ∧ chan = none ∧ (fresh = true → ¬ settled .nread)
  | .writeTest _ _ fresh =>
    holds ∧ lock = .free ∧ chan = none ∧ (fresh = true → ¬ settled .nread) ∧ readopen = true
  | .read _ | .copy _ _ | .leave | .wakeup _ _ .leave => holds ∧ lock = .free ∧ chan = none
  | .wakeup _ _ (.sleep _ _) => holds ∧ lock = .free ∧ chan = none ∧ settled .nwrite
  | .sleepLock c _ => holds ∧ lock = .free ∧ chan = none ∧ settled c
  | .sleepRelease c _ => holds ∧ lock = .self ∧ chan = none ∧ settled c
  | .dozing _ _ => ¬ holds ∧ lock = .self ∧ chan = none
  | .asleep _ => ¬ holds ∧ lock ≠ .self
  | .resumed _ => ¬ holds ∧ lock = .self

theorem Proper.of_not_holds {holds holds' : Prop} {readopen readopen' : Bool}
    {settled settled' : PipeChan → Prop} {lock : PLock} {chan : Option PipeChan} {pc : PipePc n}
    (h : pc.Proper holds readopen settled lock chan) (hn : ¬ holds) (hn' : ¬ holds') :
    pc.Proper holds' readopen' settled' lock chan := by
  cases pc with
  | wakeup c scan next => cases next <;> exact absurd h.1 hn
  | outside | woken | dozing | asleep | resumed => exact ⟨hn', h.2⟩
  | _ => exact absurd h.1 hn

theorem Proper.of_cpu {holds : Prop} {readopen : Bool} {settled : PipeChan → Prop}
    {chan : Option PipeChan} {pc : PipePc n} (h : pc.Proper holds readopen settled .cpu chan) :
    pc.Proper holds readopen settled .free chan := by
  cases pc with
  | wakeup c scan next => cases next <;> exact nomatch h.2.1
  | asleep loop => exact ⟨h.1, nofun⟩
  | resumed loop => exact nomatch h.2
  | _ => exact nomatch h.2.1

end PipePc

namespace PipeSys

variable {n : ℕ}

/-- Every process is where its locks allow, and who waits without reason is about to be woken. -/
structure SleepInv (s : PipeSys n) : Prop where
  place : ∀ p, (s.pc p).Proper (s.lk = some p) s.readopen s.Settled (s.lock p) (s.chan p)
  wait : ∀ p c, s.killed p = false → s.WaitsOn c p → s.Settled c ∨
    ∃ h, s.lk = some h ∧ (s.pc h).Pends c p

namespace SleepInv

variable {s t : PipeSys n} {p : Fin n}

theorem start (data : ℕ → Byte) : SleepInv (PipeSys.start data : PipeSys n) := by
  refine ⟨fun p => ⟨nofun, rfl, rfl⟩, fun p c _ hw => ?_⟩
  obtain ⟨_, hd⟩ | hs := hw
  · cases hd
  · cases hs

theorem ready (h : SleepInv s) : Ready s := fun hlk p c hk hs => by
  obtain hset | ⟨q, hq, -⟩ := h.wait p c hk (.inr hs)
  · exact hset
  · cases hlk.symm.trans hq

variable {c : PipeChan}

theorem not_sleepsOn (hchan : s.chan p = none) : ¬ s.sleepsOn c p = true := by
  simp [sleepsOn, hchan]

theorem sleepsOn_wakeupBody (c : PipeChan) : (s.wakeupBody c p).sleepsOn c p = false := by
  unfold PipeSys.wakeupBody
  split_ifs with hs
  · simp [sleepsOn, PipeSys.makeRunnable]
  · exact Bool.not_eq_true _ ▸ hs

/-- A step of `p`; the others keep their entries, and do not hold the lock if the pipe changes. -/
theorem place_step (h : SleepInv s) (p : Fin n)
    (hq : ∀ q, q ≠ p → t.pc q = s.pc q ∧ t.lock q = s.lock q ∧ t.chan q = s.chan q)
    (hlk : ∀ q, q ≠ p → (t.lk = some q ↔ s.lk = some q))
    (hset : t.readopen = s.readopen ∧ t.Settled = s.Settled ∨ ∀ q, q ≠ p → s.lk ≠ some q)
    (hp : (t.pc p).Proper (t.lk = some p) t.readopen t.Settled (t.lock p) (t.chan p)) (q : Fin n) :
    (t.pc q).Proper (t.lk = some q) t.readopen t.Settled (t.lock q) (t.chan q) := by
  by_cases hqp : q = p
  · exact hqp ▸ hp
  · obtain ⟨h1, h2, h3⟩ := hq q hqp
    rw [h1, h2, h3]
    obtain ⟨ho, hs⟩ | hn := hset
    · rw [propext (hlk q hqp), ho, hs]
      exact h.place q
    · exact (h.place q).of_not_holds (hn q hqp) (mt (hlk q hqp).1 (hn q hqp))

theorem not_lk (hlk : s.lk = some p) (q : Fin n) (hq : q ≠ p) : s.lk ≠ some q := fun h =>
  hq (some.inj (h.symm.trans hlk))

variable (h : SleepInv s)
include h

theorem wait_of_lk (hlk : s.lk = some p) {q : Fin n}
    (hk : s.killed q = false) (hw : s.WaitsOn c q) : s.Settled c ∨ (s.pc p).Pends c q :=
  (h.wait q c hk hw).imp_right fun ⟨r, hr, hpends⟩ => by
    rw [hlk] at hr
    exact some.inj hr ▸ hpends

theorem wait_of_free (hlk : s.lk = none) {q : Fin n}
    (hk : s.killed q = false) (hw : s.WaitsOn c q) : s.Settled c :=
  (h.wait q c hk hw).resolve_right fun ⟨_, hr, _⟩ => nomatch hlk.symm.trans hr

theorem holder {a x : PipePc n} {d : ℕ → Byte} {r w : ℕ} {ro wo : Bool}
    {acc tak : List Byte} (hpc : s.pc p = a) (hlk : s.lk = some p)
    (hx : x.Proper True ro (Settled { s with nread := r, nwrite := w, readopen := ro, writeopen := wo })
      (s.lock p) (s.chan p))
    (hd : ∀ c loop, x ≠ .dozing c loop)
    (hmono : ∀ q c, s.killed q = false → s.WaitsOn c q → s.Settled c ∨ a.Pends c q →
      Settled { s with nread := r, nwrite := w, readopen := ro, writeopen := wo } c ∨ x.Pends c q) :
    SleepInv { s with
      data := d, nread := r, nwrite := w, readopen := ro, writeopen := wo
      pc := update s.pc p x, accepted := acc, taken := tak } := by
  refine ⟨h.place_step p (fun q hq => ⟨update_of_ne hq _ _, rfl, rfl⟩) (fun _ _ => Iff.rfl)
    (.inr (not_lk hlk)) ?_, fun q c hk hw => ?_⟩
  · dsimp only
    rw [update_self, hlk, eq_self]
    exact hx
  · have hw' : s.WaitsOn c q := by
      obtain ⟨loop, hl⟩ | hs := hw
      · by_cases hqp : q = p
        · subst hqp
          exact absurd ((update_self _ _ s.pc).symm.trans hl) (hd c loop)
        · exact .inl ⟨loop, (update_of_ne hqp _ _).symm.trans hl⟩
      · exact .inr hs
    refine (hmono q c hk hw' (hpc ▸ h.wait_of_lk hlk hk hw')).imp_right fun hp => ⟨p, hlk, ?_⟩
    dsimp only
    rw [update_self]
    exact hp

theorem leave {x : PipePc n} (hlk : s.lk = some p)
    (hx : x.Proper (none = some p) s.readopen s.Settled (s.lock p) (s.chan p))
    (hd : ∀ c loop, x = .dozing c loop → s.Settled c)
    (hall : ∀ q c, s.killed q = false → s.WaitsOn c q → s.Settled c) :
    SleepInv { s with lk := none, pc := update s.pc p x } := by
  refine ⟨h.place_step p (fun q hq => ⟨update_of_ne hq _ _, rfl, rfl⟩)
    (fun q hq => ⟨nofun, fun hs => absurd hs (not_lk hlk q hq)⟩) (.inl ⟨rfl, rfl⟩) ?_,
    fun q c hk hw => .inl ?_⟩
  · dsimp only
    rw [update_self]
    exact hx
  · obtain ⟨loop, hl⟩ | hs := hw
    · by_cases hqp : q = p
      · subst hqp
        exact hd c loop ((update_self _ _ s.pc).symm.trans hl)
      · exact hall q c hk (.inl ⟨loop, (update_of_ne hqp _ _).symm.trans hl⟩)
    · exact hall q c hk (.inr hs)

theorem enter {x : PipePc n} {ro wo : Bool} (hlk : s.lk = none)
    (hx : x.Proper True ro (Settled { s with readopen := ro, writeopen := wo }) (s.lock p) (s.chan p))
    (hd : ∀ c loop, x ≠ .dozing c loop)
    (hmono : ∀ q c, s.Settled c →
      Settled { s with readopen := ro, writeopen := wo } c ∨ x.Pends c q) :
    SleepInv { s with lk := some p, readopen := ro, writeopen := wo, pc := update s.pc p x } := by
  refine ⟨h.place_step p (fun q hq => ⟨update_of_ne hq _ _, rfl, rfl⟩)
    (fun q hq => ⟨fun hs => absurd (some.inj hs).symm hq, fun hs => nomatch hlk.symm.trans hs⟩)
    (.inr fun q _ hs => nomatch hlk.symm.trans hs) ?_, fun q c hk hw => ?_⟩
  · dsimp only
    rw [update_self, eq_self]
    exact hx
  · have hw' : s.WaitsOn c q := by
      obtain ⟨loop, hl⟩ | hs := hw
      · by_cases hqp : q = p
        · subst hqp
          exact absurd ((update_self _ _ s.pc).symm.trans hl) (hd c loop)
        · exact .inl ⟨loop, (update_of_ne hqp _ _).symm.trans hl⟩
      · exact .inr hs
    refine (hmono q c (h.wait_of_free hlk hk hw')).imp_right fun hp => ⟨p, rfl, ?_⟩
    dsimp only
    rw [update_self]
    exact hp

theorem own (p : Fin n) (hlk : t.lk = s.lk)
    (hpipe : t.readopen = s.readopen ∧ t.Settled = s.Settled)
    (hq : ∀ q, q ≠ p → t.pc q = s.pc q ∧ t.lock q = s.lock q ∧ t.chan q = s.chan q ∧
      t.state q = s.state q ∧ t.killed q = s.killed q)
    (hp : (t.pc p).Proper (s.lk = some p) s.readopen s.Settled (t.lock p) (t.chan p))
    (hwait : ∀ c, t.killed p = false → t.WaitsOn c p → s.killed p = false ∧ s.WaitsOn c p)
    (hpends : ∀ c q, (s.pc p).Pends c q → (t.pc p).Pends c q) : SleepInv t := by
  refine ⟨h.place_step p (fun q hqp => ?_) (fun q _ => by rw [hlk]) (.inl hpipe) ?_,
    fun q c hk hw => ?_⟩
  · obtain ⟨h1, h2, h3, -, -⟩ := hq q hqp
    exact ⟨h1, h2, h3⟩
  · rw [hlk, hpipe.1, hpipe.2]
    exact hp
  · have hold : s.killed q = false ∧ s.WaitsOn c q := by
      by_cases hqp : q = p
      · subst hqp
        exact hwait c hk hw
      · obtain ⟨h1, -, h3, h4, h5⟩ := hq q hqp
        refine ⟨h5.symm.trans hk, hw.imp (fun ⟨loop, hl⟩ => ⟨loop, h1.symm.trans hl⟩) fun hs => ?_⟩
        rwa [sleepsOn, h3, h4] at hs
    rw [hlk, hpipe.2]
    refine (h.wait q c hold.1 hold.2).imp_right fun ⟨r, hr, hpd⟩ => ⟨r, hr, ?_⟩
    by_cases hrp : r = p
    · exact hrp ▸ hpends c q (hrp ▸ hpd)
    · rw [(hq r hrp).1]
      exact hpd

theorem wake (q : Fin n) {killed : Fin n → Bool}
    (hk : ∀ r, r ≠ q → killed r = s.killed r) (hkq : killed q = false → s.killed q = false) :
    SleepInv { s.makeRunnable q with killed := killed } := by
  refine h.own q rfl ⟨rfl, rfl⟩ (fun r hr => ⟨rfl, rfl, rfl, update_of_ne hr _ _, hk r hr⟩) (h.place q)
    (fun c hkill hw => ⟨hkq hkill, ?_⟩) fun _ _ => id
  obtain hd | hs := hw
  · exact .inl hd
  · simp [sleepsOn, PipeSys.makeRunnable] at hs

theorem wakeupBody (c : PipeChan) (q : Fin n) : SleepInv (s.wakeupBody c q) := by
  unfold PipeSys.wakeupBody
  split_ifs
  · exact h.wake q (fun _ _ => rfl) id
  · exact h

theorem writeBody (hring : RingInv s) {i : ℕ} {len : ℤ} {fresh : Bool}
    (hpc : s.pc p = .writeTest i len fresh) (user : Option Byte) :
    SleepInv (s.writeBody p i len user) := by
  have hp := h.place p
  rw [hpc] at hp
  obtain ⟨hlk, hlock, hchan, -, hopen⟩ := hp
  have hwake : ∀ (next : PipeNext), (next = .leave ∨ s.Settled .nwrite) →
      SleepInv (s.wakeup p .nread next) := fun next hnext => by
    refine h.holder hpc hlk ?_ nofun
      fun q c _ _ hq => hq.imp_right fun hpd => ⟨hpd.1, mem_finRange q⟩
    cases next with
    | leave => exact ⟨trivial, hlock, hchan⟩
    | sleep i len => exact ⟨trivial, hlock, hchan, hnext.resolve_left nofun⟩
  unfold PipeSys.writeBody
  split_ifs with hfull
  · exact hwake _ (.inr ⟨hfull, hopen⟩)
  · cases user with
    | none => exact hwake _ (.inl rfl)
    | some ch =>
      have hne := hring.put_ne (Bool.not_eq_true _ ▸ hfull) ch
      refine h.holder hpc hlk ⟨trivial, hlock, hchan, fun _ hset => hne hset.1⟩ nofun
        fun q c _ _ hq => ?_
      cases c with
      | nread => exact .inr ⟨rfl, rfl⟩
      | nwrite => exact hq.elim (fun hset => absurd hset.1 hfull) fun hpd => nomatch hpd.1

theorem copyBody {i : ℕ} {len : ℤ} (hpc : s.pc p = .copy i len)
    (user : Option Byte) : SleepInv (s.copyBody p i len user) := by
  have hp := h.place p
  rw [hpc] at hp
  obtain ⟨hlk, hlock, hchan⟩ := hp
  unfold PipeSys.copyBody
  split_ifs with hmore
  · -- over a pipe with bytes in it nobody waits for bytes
    have hnwrite : ∀ {q : Fin n} {c : PipeChan},
        s.Settled c ∨ (PipePc.copy i len : PipePc n).Pends c q → c = .nwrite := fun {q c} hq => by
      cases c with
      | nread => exact hq.elim (fun hset => absurd hset.1 hmore.2) id
      | nwrite => rfl
    cases user with
    | none =>
      exact h.holder hpc hlk ⟨trivial, hlock, hchan⟩ nofun
        fun q c _ _ hq => .inr ⟨hnwrite hq, mem_finRange q⟩
    | some ch =>
      exact h.holder hpc hlk ⟨trivial, hlock, hchan⟩ nofun fun q c _ _ hq => .inr (hnwrite hq)
  · exact h.holder hpc hlk ⟨trivial, hlock, hchan⟩ nofun
      fun q c _ _ hq => hq.imp_right fun hpd => ⟨hpd, mem_finRange q⟩

theorem scan {q : Fin n} {rest : List (Fin n)} {next : PipeNext}
    (hpc : s.pc p = .wakeup c (q :: rest) next) (hq : s.killed q = false → ¬ s.WaitsOn c q) :
    SleepInv (s.goto p (.wakeup c rest next)) := by
  have hp := h.place p
  rw [hpc] at hp
  have hmono : ∀ r c', s.killed r = false → s.WaitsOn c' r →
      s.Settled c' ∨ (PipePc.wakeup c (q :: rest) next).Pends c' r →
      s.Settled c' ∨ (PipePc.wakeup c rest next).Pends c' r := fun r c' hk hw hr =>
    hr.imp_right fun hpd => ⟨hpd.1, mem_of_ne_of_mem (fun hrq : r = q => by
      rw [hrq] at hk hw
      exact hq hk (hpd.1 ▸ hw)) hpd.2⟩
  cases next with
  | leave =>
    obtain ⟨hlk, hlock, hchan⟩ := hp
    exact h.holder hpc hlk ⟨trivial, hlock, hchan⟩ nofun hmono
  | sleep i len =>
    obtain ⟨hlk, hlock, hchan, hset⟩ := hp
    exact h.holder hpc hlk ⟨trivial, hlock, hchan, hset⟩ nofun hmono

theorem not_dozing {q : Fin n} (hfree : s.lock q = .free) (c : PipeChan)
    (loop : PipeLoop) : s.pc q ≠ .dozing c loop := fun hpc => by
  have hp := h.place q
  rw [hpc, hfree] at hp
  exact nomatch hp.2.1

theorem go (hring : RingInv s) {user : Option Byte}
    (hc : Courteous s (.go p user)) (hst : s.go p user = some t) : SleepInv t := by
  have hp := h.place p
  unfold PipeSys.go at hst
  split at hst
  case h_1 | h_2 => cases hst
  case h_3 i len fresh hpc =>
    rw [hpc] at hp
    obtain ⟨hlk, hlock, hchan, hfresh⟩ := hp
    split_ifs at hst with hi hopen hkilled
    · cases hst
      exact h.holder hpc hlk ⟨trivial, hlock, hchan, hfresh⟩ nofun fun _ _ _ _ => id
    · cases hst
      exact h.holder hpc hlk ⟨trivial, hlock, hchan, hfresh, hopen⟩ nofun fun _ _ _ _ => id
    · cases hst
      exact h.holder hpc hlk ⟨trivial, hlock, hchan, hfresh⟩ nofun fun _ _ _ _ => id
    · cases hst
      exact h.holder hpc hlk ⟨trivial, hlock, hchan⟩ nofun
        fun q c _ _ hq => hq.imp_right fun hpd => ⟨hpd.1, mem_finRange q⟩
  case h_4 i len fresh hpc =>
    cases hst
    exact h.writeBody hring hpc user
  case h_5 fresh hpc =>
    cases hst
    rw [hpc] at hp
    obtain ⟨hlk, hlock, hchan, -⟩ := hp
    refine h.leave hlk ⟨nofun, hlock, hchan⟩ nofun fun q c hk hw => ?_
    obtain hset | hpd := h.wait_of_lk hlk hk hw
    · exact hset
    · rw [hpc] at hpd
      obtain ⟨rfl, rfl⟩ := hpd
      exact absurd hw (hc hpc q hk)
  case h_6 len hpc =>
    rw [hpc] at hp
    obtain ⟨hlk, hlock, hchan⟩ := hp
    split_ifs at hst with hempty hkilled
    · cases hst
      exact h.holder hpc hlk ⟨trivial, hlock, hchan⟩ nofun fun _ _ _ _ => id
    · cases hst
      exact h.holder hpc hlk ⟨trivial, hlock, hchan, hempty⟩ nofun fun _ _ _ _ => id
    · cases hst
      exact h.holder hpc hlk ⟨trivial, hlock, hchan⟩ nofun fun _ _ _ _ hq => hq.imp_right False.elim
  case h_7 i len hpc =>
    cases hst
    exact h.copyBody hpc user
  case h_8 c q rest next hpc =>
    split_ifs at hst with hqp hfree
    · cases hst
      refine h.scan hpc fun _ hw => ?_
      rw [hqp] at hw
      rw [hpc] at hp
      have hchan : s.chan p = none := by
        cases next with
        | leave => exact hp.2.2
        | sleep i len => exact hp.2.2.1
      obtain ⟨loop, hl⟩ | hs := hw
      · cases hpc.symm.trans hl
      · exact not_sleepsOn hchan hs
    · cases hst
      have hpc' : (s.wakeupBody c q).pc p = .wakeup c (q :: rest) next := by
        unfold PipeSys.wakeupBody
        split_ifs <;> exact hpc
      refine (h.wakeupBody c q).scan hpc' fun _ hw => ?_
      obtain ⟨loop, hl⟩ | hs := hw
      · refine h.not_dozing hfree c loop (Eq.trans ?_ hl)
        unfold PipeSys.wakeupBody
        split_ifs <;> rfl
      · rw [sleepsOn_wakeupBody] at hs
        cases hs
  case h_9 c hpc =>
    cases hst
    rw [hpc] at hp
    obtain ⟨hlk, hlock, hchan⟩ := hp
    exact h.holder hpc hlk ⟨trivial, hlock, hchan⟩ nofun
      fun _ _ _ _ hq => .inl (hq.resolve_right fun hpd => not_mem_nil hpd.2)
  case h_10 c i len hpc =>
    cases hst
    rw [hpc] at hp
    obtain ⟨hlk, hlock, hchan, hset⟩ := hp
    exact h.holder hpc hlk ⟨trivial, hlock, hchan, hset⟩ nofun
      fun _ _ _ _ hq => .inl (hq.resolve_right fun hpd => not_mem_nil hpd.2)
  case h_11 hpc =>
    cases hst
    rw [hpc] at hp
    obtain ⟨hlk, hlock, hchan⟩ := hp
    refine h.leave hlk ⟨nofun, hlock, hchan⟩ nofun fun q c hk hw => ?_
    have := h.wait_of_lk hlk hk hw
    rw [hpc] at this
    exact this.resolve_right id
  case h_12 c loop hpc =>
    obtain ⟨hfree, rfl⟩ := of_guard hst
    rw [hpc] at hp
    obtain ⟨hlk, -, hchan, hset⟩ := hp
    refine h.own p rfl ⟨rfl, rfl⟩
      (fun q hq => ⟨update_of_ne hq _ _, update_of_ne hq _ _, rfl, rfl, rfl⟩) ?_ (fun c hk hw => ?_) ?_
    · simp only [PipeSys.goto, update_self]
      exact ⟨hlk, rfl, hchan, hset⟩
    · obtain ⟨loop', hl⟩ | hs := hw
      · cases (update_self ..).symm.trans hl
      · exact absurd hs (not_sleepsOn hchan)
    · rw [hpc]
      exact fun _ _ => False.elim
  case h_13 c loop hpc =>
    cases hst
    rw [hpc] at hp
    obtain ⟨hlk, hlock, hchan, hset⟩ := hp
    refine h.leave hlk ⟨nofun, hlock, hchan⟩ (fun c' loop' heq => ?_) fun q c hk hw => ?_
    · cases heq
      exact hset
    · have := h.wait_of_lk hlk hk hw
      rw [hpc] at this
      exact this.resolve_right id
  case h_14 c loop hpc =>
    cases hst
    rw [hpc] at hp
    refine h.own p rfl ⟨rfl, rfl⟩
      (fun q hq => ⟨update_of_ne hq _ _, update_of_ne hq _ _, update_of_ne hq _ _, update_of_ne hq _ _,
        rfl⟩) ?_ (fun c' hk hw => ⟨hk, ?_⟩) ?_
    · simp only [PipeSys.goto, update_self]
      exact ⟨hp.1, nofun⟩
    · obtain ⟨loop', hl⟩ | hs := hw
      · cases (update_self ..).symm.trans hl
      · simp only [sleepsOn, update_self, Option.some.injEq, Bool.and_eq_true, decide_eq_true_eq] at hs
        exact .inl ⟨loop, hs.2 ▸ hpc⟩
    · rw [hpc]
      exact fun _ _ => False.elim
  case h_15 loop hpc =>
    cases hst
    rw [hpc] at hp
    refine h.own p rfl ⟨rfl, rfl⟩
      (fun q hq => ⟨update_of_ne hq _ _, update_of_ne hq _ _, update_of_ne hq _ _, rfl, rfl⟩) ?_
      (fun c' hk hw => ?_) ?_
    · simp only [PipeSys.goto, update_self]
      exact ⟨hp.1, rfl, rfl⟩
    · obtain ⟨loop', hl⟩ | hs := hw
      · cases (update_self ..).symm.trans hl
      · exact absurd hs (not_sleepsOn (update_self ..))
    · rw [hpc]
      exact fun _ _ => False.elim
  case h_16 loop hpc =>
    obtain ⟨hfree, rfl⟩ := of_guard hst
    rw [hpc] at hp
    refine h.enter hfree ?_ ?_ fun _ _ => .inl
    · cases loop with
      | write i len => exact ⟨trivial, hp.2.1, hp.2.2, nofun⟩
      | read len => exact ⟨trivial, hp.2.1, hp.2.2⟩
    · cases loop <;> nofun

theorem next {rel : Bool} {op : PipeOp n} (hring : RingInv s)
    (hc : Courteous s op) (hst : s.next rel op = some t) : SleepInv t := by
  cases op with
  | go p user => exact h.go hring hc hst
  | write p len =>
    obtain ⟨⟨hpc, hlk⟩, rfl⟩ := of_guard hst
    have hp := h.place p
    rw [hpc] at hp
    exact h.enter hlk ⟨trivial, hp.2.1, hp.2.2, nofun⟩ nofun fun _ _ => .inl
  | read p len =>
    obtain ⟨⟨hpc, hlk⟩, rfl⟩ := of_guard hst
    have hp := h.place p
    rw [hpc] at hp
    exact h.enter hlk ⟨trivial, hp.2.1, hp.2.2⟩ nofun fun _ _ => .inl
  | close p writable =>
    obtain ⟨⟨hpc, hlk⟩, rfl⟩ := of_guard hst
    have hp := h.place p
    rw [hpc] at hp
    unfold closeBody
    split_ifs
    · refine h.enter hlk ⟨trivial, hp.2.1, hp.2.2⟩ nofun fun q c hset => ?_
      cases c with
      | nread => exact .inr ⟨rfl, mem_finRange q⟩
      | nwrite => exact .inl hset
    · refine h.enter hlk ⟨trivial, hp.2.1, hp.2.2⟩ nofun fun q c hset => ?_
      cases c with
      | nread => exact .inl hset
      | nwrite => exact .inr ⟨rfl, mem_finRange q⟩
  | handOver p =>
    obtain ⟨⟨-, hcpu⟩, rfl⟩ := of_guard hst
    refine h.own p rfl ⟨rfl, rfl⟩ (fun q hq => ⟨rfl, update_of_ne hq _ _, rfl, rfl, rfl⟩) ?_
      (fun _ hk hw => ⟨hk, hw⟩) fun _ _ => id
    have hp := h.place p
    dsimp only
    rw [hcpu] at hp
    rw [update_self]
    exact hp.of_cpu
  | dispatch p =>
    unfold PipeSys.next at hst
    dsimp only at hst
    split at hst
    next loop hpc =>
      obtain ⟨hfree, rfl⟩ := of_guard hst
      have hp := h.place p
      rw [hpc] at hp
      refine h.own p rfl ⟨rfl, rfl⟩
        (fun q hq => ⟨update_of_ne hq _ _, update_of_ne hq _ _, rfl, rfl, rfl⟩) ?_
        (fun _ hk hw => ⟨hk, .inr (hw.resolve_left fun ⟨loop', hl⟩ => ?_)⟩) ?_
      · simp only [PipeSys.goto, update_self]
        exact ⟨hp.1, rfl⟩
      · cases (update_self ..).symm.trans hl
      · rw [hpc]
        exact fun _ _ => False.elim
    next => cases hst
  | kill p =>
    obtain ⟨hfree, rfl⟩ := of_guard hst
    split_ifs
    · exact h.wake p (fun r hr => update_of_ne hr _ _) fun hk => nomatch (update_self ..).symm.trans hk
    · exact h.own p rfl ⟨rfl, rfl⟩ (fun q hq => ⟨rfl, rfl, rfl, rfl, update_of_ne hq _ _⟩) (h.place p)
        (fun _ hk _ => nomatch (update_self ..).symm.trans hk) fun _ _ => id

end SleepInv

theorem sleepInv_reachable {rel : Bool} {s : PipeSys n}
    (hs : ((system n rel).restrict Courteous).Reachable s) : SleepInv s :=
  hs.invariant (fun _ ⟨data, hd⟩ => hd ▸ SleepInv.start data)
    fun _ _ _ hr h hst => h.next (ring_reachable hr.of_restrict) hst.1 hst.2

/-- A writer that leaves a reader asleep over its bytes leaves a state that is not ready, at once or
as soon as the reader has called `sched`. -/
theorem not_ready_of_not_courteous {rel : Bool} {s t : PipeSys n} {op : PipeOp n} (h : SleepInv s)
    (hst : (system n rel).step s op t) (hc : ¬ Courteous s op) :
    ∃ ls u, (system n rel).Run t ls u ∧ ¬ Ready u := by
  cases op with
  | go p user =>
    obtain ⟨hpc, q, hk, hw⟩ : s.pc p = .writeFail true ∧ ∃ q, s.killed q = false ∧ s.WaitsOn .nread q := by
      simpa [Courteous] using hc
    have hp := h.place p
    rw [hpc] at hp
    have hset : ¬ s.Settled .nread := hp.2.2.2 rfl
    have ht : t = { s.goto p .outside with lk := none } := by
      have hgo : s.go p user = some t := hst
      rw [go, hpc] at hgo
      exact (some.inj hgo).symm
    obtain ⟨loop, hd⟩ | hs := hw
    · have hqp : q ≠ p := fun he => by
        rw [he, hpc] at hd
        cases hd
      have htq : t.pc q = .dozing .nread loop := by
        rw [ht]
        exact (update_of_ne hqp _ _).trans hd
      refine ⟨[.go q none], _, .cons (t := { t.goto q (.asleep loop) with
        chan := update t.chan q (some .nread)
        state := update t.state q .sleeping
        lock := update t.lock q .cpu }) ?_ (.nil _), fun hr => hset ?_⟩
      · change t.go q none = _
        rw [go, htq]
      · subst ht
        exact hr rfl q .nread hk (by simp [sleepsOn])
    · refine ⟨[], t, .nil _, fun hr => hset ?_⟩
      subst ht
      exact hr rfl q .nread hk hs
  | _ => exact absurd trivial hc

/-- **Nobody sleeps on a ready pipe in any run in which no writer that was killed leaves a reader
waiting over the bytes it has put**; a writer that does breaks it. -/
theorem ready_courteous (n : ℕ) (rel : Bool) :
    (∀ s, ((system n rel).restrict Courteous).Reachable s → Ready s) ∧
    ∀ s op t, ((system n rel).restrict Courteous).Reachable s → (system n rel).step s op t →
      ¬ Courteous s op → ∃ ls u, (system n rel).Run t ls u ∧ ¬ Ready u :=
  ⟨fun _ hs => (sleepInv_reachable hs).ready,
    fun _ _ _ hs hst hc => not_ready_of_not_courteous (sleepInv_reachable hs) hst hc⟩

/-- A reader sleeps; a writer puts a byte, is killed, and returns. -/
theorem ready_courteous_fails : ∃ s : PipeSys 2, (system 2 false).Reachable s ∧ s.lk = none ∧
    s.killed 0 = false ∧ s.sleepsOn .nread 0 = true ∧ s.nread ≠ s.nwrite := by
  let ls : List (PipeOp 2) := [.read 0 1, .go 0 none, .go 0 none, .go 0 none, .go 0 none, .write 1 2,
    .go 1 none, .go 1 (some 5), .kill 1, .go 1 none, .go 1 none]
  obtain ⟨s, hs⟩ : ∃ s, System.execute (next false) (start fun _ => 0) ls = some s := ⟨_, rfl⟩
  have hr : (system 2 false).Reachable s := .run (.of_execute hs) (.init ⟨_, rfl⟩)
  cases hs
  exact ⟨_, hr, rfl, rfl, rfl, by decide⟩

end PipeSys

end Xv6
