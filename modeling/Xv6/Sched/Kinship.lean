import Xv6.Machinery.Forest
import Mathlib.Logic.Relation

/-!
# Sched/Kinship — parents and children, away from locks and tables

In `Kin` only the parent pointers and the stages of a life count: every parent lives and all descend
from the first process.  In `Vigil` a parent may wait for a child to die: nobody waits over a dead
child without someone about to rouse it.
-/

namespace Xv6

open Machinery Function Relation

variable {α : Type} [DecidableEq α]

/-! ## Lives

A child is allocated, adopted and started; who leaves hands its children to the root. -/

/-- The stages of a life. -/
inductive Stage (α : Type)
  /-- The entry is free. -/
  | free
  /-- Allocated by a parent that has not started it. -/
  | used
  /-- Alive. -/
  | normal
  /-- Alive, with `np` allocated. -/
  | forking (np : α)
  /-- Alive, with `np` pointing to it. -/
  | adopting (np : α)
  /-- Giving its children away; those that may still be its own are among `rest`. -/
  | leaving (rest : List α)
  /-- Without children for ever. -/
  | childless

namespace Stage

def child : Stage α → Option α
  | .forking np | .adopting np => some np
  | _ => none

def started : Stage α → Prop
  | .free | .used => False
  | _ => True

/-- The process has not begun to exit. -/
def staying : Stage α → Prop
  | .normal | .forking _ | .adopting _ => True
  | _ => False

/-- `q` may point to the process as its parent. -/
def Keeps (q : α) : Stage α → Prop
  | .free | .used | .childless => False
  | .leaving rest => q ∈ rest
  | _ => True

omit [DecidableEq α] in
theorem staying.keeps {a : Stage α} (h : a.staying) (q : α) : a.Keeps q := by
  cases a <;> first | exact h.elim | trivial

end Stage

/-- Lives and parent pointers. -/
@[ext]
structure Kin (α : Type) where
  stage : α → Stage α
  parent : α → Option α

namespace Kin

/-- What a process can do to the family; `root` is the first one. -/
inductive Step (root : α) (k : Kin α) : Kin α → Prop
  | fork {p np : α} (hp : k.stage p = .normal) (hnp : k.stage np = .free) :
      Step root k ⟨update (update k.stage p (.forking np)) np .used, k.parent⟩
  | fail {p np : α} (hp : k.stage p = .forking np) :
      Step root k ⟨update (update k.stage p .normal) np .free, update k.parent np none⟩
  | adopt {p np : α} (hp : k.stage p = .forking np) :
      Step root k ⟨update k.stage p (.adopting np), update k.parent np (some p)⟩
  | start {p np : α} (hp : k.stage p = .adopting np) :
      Step root k ⟨update (update k.stage p .normal) np .normal, k.parent⟩
  | leave {p : α} {rest : List α} (hp : k.stage p = .normal) (hroot : p ≠ root)
      (hall : ∀ q, q ∈ rest) : Step root k ⟨update k.stage p (.leaving rest), k.parent⟩
  | pass {p q : α} {rest : List α} (hp : k.stage p = .leaving (q :: rest))
      (hq : k.parent q ≠ some p) : Step root k ⟨update k.stage p (.leaving rest), k.parent⟩
  | hand {p q : α} {rest : List α} (hp : k.stage p = .leaving (q :: rest))
      (hq : k.parent q = some p) :
      Step root k ⟨update k.stage p (.leaving rest), update k.parent q (some root)⟩
  | left {p : α} (hp : k.stage p = .leaving []) :
      Step root k ⟨update k.stage p .childless, k.parent⟩

/-- **Every parent keeps its children, and all descend from the root.** -/
structure Inv (root : α) (k : Kin α) : Prop where
  child : ∀ p np, (k.stage p).child = some np → k.stage np = .used
  inj : ∀ p r np, (k.stage p).child = some np → (k.stage r).child = some np → p = r
  keeps : ∀ p q, k.parent q = some p → (k.stage p).Keeps q
  adopting : ∀ p q, k.parent q = some p → ¬ (k.stage q).started → k.stage p = .adopting q
  adopted : ∀ p np, k.stage p = .adopting np → k.parent np = some p
  orphan : ∀ q, (k.stage q).started → q ≠ root → k.parent q ≠ none
  first : k.parent root = none ∧ (k.stage root).staying
  descends : ∀ q, k.parent q ≠ none → Descends k.parent root q

namespace Inv

variable {root : α} {k k' : Kin α} {p np : α}

omit [DecidableEq α] in
theorem not_started (h : Inv root k) (hc : (k.stage p).child = some np) : ¬ (k.stage np).started := by
  rw [h.child p np hc]
  exact id

omit [DecidableEq α] in
/-- A child that has been allocated but not adopted has no parent. -/
theorem parent_none (h : Inv root k) (hp : k.stage p = .forking np) : k.parent np = none := by
  have hc : (k.stage p).child = some np := by rw [hp]; rfl
  refine Option.eq_none_iff_forall_ne_some.2 fun r hr => ?_
  have hadopt := h.adopting r np hr (h.not_started hc)
  have heq := h.inj p r np hc (by rw [hadopt]; rfl)
  rw [heq, hadopt] at hp
  cases hp

omit [DecidableEq α] in
theorem parent_ne (h : Inv root k) (hc : (k.stage p).child = some np) (q : α) :
    k.parent q ≠ some np := fun hq => by
  have := h.keeps np q hq
  rw [h.child p np hc] at this
  exact this

theorem move (h : Inv root k) {b : Stage α} (hs : (k.stage p).started) (hb : b.started)
    (hc : b.child = none) (ha : ∀ q, k.stage p ≠ .adopting q)
    (hk : ∀ q, k.parent q = some p → b.Keeps q) (hr : p = root → b.staying) :
    Inv root ⟨update k.stage p b, k.parent⟩ := by
  obtain ⟨h1, h2, h3, h4, h5, h6, h7, h8⟩ := h
  refine ⟨?_, ?_, ?_, ?_, ?_, ?_, ?_, h8⟩ <;> dsimp only <;>
    grind [update_apply, Stage.child, Stage.started]

theorem step (h : Inv root k) (hst : Step root k k') : Inv root k' := by
  cases hst with
  | @leave p rest hp hroot hall =>
    exact h.move (by rw [hp]; trivial) trivial rfl (by rw [hp]; nofun) (fun q _ => hall q)
      fun hr => absurd hr hroot
  | @pass p q rest hp hq =>
    refine h.move (by rw [hp]; trivial) trivial rfl (by rw [hp]; nofun) (fun r hr => ?_) fun hr => ?_
    · have := h.keeps p r hr
      rw [hp] at this
      exact List.mem_of_ne_of_mem (fun he => hq (by rwa [← he])) this
    · have := h.first.2
      rw [← hr, hp] at this
      exact this.elim
  | @left p hp =>
    refine h.move (by rw [hp]; trivial) trivial rfl (by rw [hp]; nofun) (fun r hr => ?_) fun hr => ?_
    · have := h.keeps p r hr
      rw [hp] at this
      exact List.not_mem_nil this
    · have := h.first.2
      rw [← hr, hp] at this
      exact this.elim
  | @fork p np hp hnp =>
    obtain ⟨h1, h2, h3, h4, h5, h6, h7, h8⟩ := h
    have hne : p ≠ np := fun he => by rw [he, hnp] at hp; cases hp
    refine ⟨?_, ?_, ?_, ?_, ?_, ?_, ?_, h8⟩ <;> dsimp only <;>
      grind [update_apply, Stage.child, Stage.started, Stage.staying, Stage.Keeps]
  | @fail p np hp =>
    have hc : (k.stage p).child = some np := by rw [hp]; rfl
    have hparent : update k.parent np none = k.parent := by
      rw [← h.parent_none hp, update_eq_self]
    have hne : p ≠ np := fun he => by have := h.child p np hc; rw [he] at hp; rw [this] at hp; cases hp
    rw [hparent]
    obtain ⟨h1, h2, h3, h4, h5, h6, h7, h8⟩ := h
    refine ⟨?_, ?_, ?_, ?_, ?_, ?_, ?_, h8⟩ <;> dsimp only <;>
      grind [update_apply, Stage.child, Stage.started, Stage.staying, Stage.Keeps]
  | @adopt p np hp =>
    have hc : (k.stage p).child = some np := by rw [hp]; rfl
    have hleaf := h.parent_ne hc
    have hne : p ≠ np := fun he => by have := h.child p np hc; rw [he] at hp; rw [this] at hp; cases hp
    have hdesc : ∀ q, q ≠ np → Descends k.parent root q → Descends (update k.parent np (some p)) root q :=
      fun q hq hd => hd.update_leaf hleaf hq _
    have hp' : Descends k.parent root p := by
      by_cases hr : p = root
      · exact hr ▸ .root
      · exact h.descends p (h.orphan p (by rw [hp]; trivial) hr)
    obtain ⟨h1, h2, h3, h4, h5, h6, h7, h8⟩ := h
    refine ⟨?_, ?_, ?_, ?_, ?_, ?_, ?_, fun q hq => ?_⟩ <;> dsimp only
    case refine_8 =>
      by_cases hqn : q = np
      · exact .child (by rw [hqn, update_self]) (hdesc p hne hp')
      · exact hdesc q hqn (h8 q (fun hn => hq ((update_of_ne hqn _ _).trans hn)))
    all_goals grind [update_apply, Stage.child, Stage.started, Stage.staying, Stage.Keeps]
  | @start p np hp =>
    have hc : (k.stage p).child = some np := by rw [hp]; rfl
    obtain ⟨h1, h2, h3, h4, h5, h6, h7, h8⟩ := h
    refine ⟨?_, ?_, ?_, ?_, ?_, ?_, ?_, h8⟩ <;> dsimp only <;>
      grind [update_apply, Stage.child, Stage.started, Stage.staying, Stage.Keeps]
  | @hand p q rest hp hq =>
    have hroot := h.first.2.keeps
    have hpr : p ≠ root := fun he => by
      have := h.first.2
      rw [← he, hp] at this
      exact this
    have hq' : (k.stage q).started := not_not.1 fun hn => by
      rw [h.adopting p q hq hn] at hp
      cases hp
    obtain ⟨h1, h2, h3, h4, h5, h6, h7, h8⟩ := h
    refine ⟨?_, ?_, ?_, ?_, ?_, ?_, ?_, fun r hr => ?_⟩ <;> dsimp only
    case refine_8 =>
      by_cases hrq : r = q
      · exact .child (by rw [hrq, update_self]) .root
      · exact (h8 r fun hn => hr ((update_of_ne hrq _ _).trans hn)).update_root q
    all_goals grind [update_apply, Stage.child, Stage.started, Stage.staying, Stage.Keeps]

theorem run (h : Inv root k) (hr : ReflTransGen (Step root) k k') : Inv root k' := by
  induction hr with
  | refl => exact h
  | tail _ hst ih => exact ih.step hst

end Inv

end Kin

/-! ## Vigils

A parent looks at every child and waits if none is dead; who dies or hands a child on rouses its
parent. -/

/-- What a process has to do with waiting. -/
inductive Role (α : Type)
  | idle
  /-- Looks for a dead child; what it may have missed is among `rest`. -/
  | looking (rest : List α)
  /-- Has found no dead child. -/
  | clear
  /-- Waits, or is about to, without looking again. -/
  | waiting
  /-- Has given a child to the root; rouses everyone in `scan` that waits as the root does. -/
  | handing (scan : List α)
  /-- Dies; rouses everyone in `scan` that waits as `c` does. -/
  | telling (c : Option α) (scan : List α)
  /-- Has roused its parent. -/
  | told

/-- The process keeps the others from looking, dying and giving children away. -/
def Role.active : Role α → Prop
  | .idle | .waiting => False
  | _ => True

/-- Who waits for whom. -/
@[ext]
structure Vigil (α : Type) where
  role : α → Role α
  parent : α → Option α
  dead : α → Prop

namespace Vigil

/-- Nobody but perhaps `p` is active. -/
def Alone (v : Vigil α) (p : α) : Prop := ∀ r, r ≠ p → ¬ (v.role r).active

/-- What a process can do about waiting. -/
inductive Step (root : α) (v : Vigil α) : Vigil α → Prop
  | settle {p : α} (hp : ∀ scan, v.role p = .handing scan → scan = []) :
      Step root v { v with role := update v.role p .idle }
  | look {p : α} {rest : List α} (hp : v.role p = .idle) (halone : v.Alone p)
      (hall : ∀ q, q ∈ rest) : Step root v { v with role := update v.role p (.looking rest) }
  | pass {p q : α} {rest : List α} (hp : v.role p = .looking (q :: rest))
      (hq : v.parent q = some p → ¬ v.dead q) :
      Step root v { v with role := update v.role p (.looking rest) }
  | clear {p : α} (hp : v.role p = .looking []) :
      Step root v { v with role := update v.role p .clear }
  | wait {p : α} (hp : v.role p = .clear) :
      Step root v { v with role := update v.role p .waiting }
  | adopt {p np : α} (halone : ∀ r, ¬ (v.role r).active) (hnp : ¬ v.dead np) :
      Step root v { v with parent := update v.parent np (some p) }
  | disown {np : α} (hnp : v.role np = .idle) :
      Step root v { v with parent := update v.parent np none }
  | hand {p q : α} {scan : List α} (hp : v.role p = .idle) (halone : v.Alone p)
      (hall : ∀ q, q ∈ scan) :
      Step root v { v with
        role := update v.role p (.handing scan)
        parent := update v.parent q (some root) }
  | handed {p q : α} {scan : List α} (hp : v.role p = .handing (q :: scan))
      (hq : q = root → v.role q ≠ .waiting) :
      Step root v { v with role := update v.role p (.handing scan) }
  | tell {p : α} {scan : List α} (hp : v.role p = .idle) (halone : v.Alone p)
      (hall : ∀ q, q ∈ scan) :
      Step root v { v with role := update v.role p (.telling (v.parent p) scan) }
  | telling {p q : α} {c : Option α} {scan : List α} (hp : v.role p = .telling c (q :: scan))
      (hq : c = some q → v.role q ≠ .waiting) :
      Step root v { v with role := update v.role p (.telling c scan) }
  | told {p : α} {c : Option α} (hp : v.role p = .telling c []) :
      Step root v { v with role := update v.role p .told }
  | die {p : α} (hp : v.role p = .told) :
      Step root v { v with role := update v.role p .idle, dead := update v.dead p True }

/-- **Whoever waits over a dead child is about to be roused.** -/
structure Inv (root : α) (v : Vigil α) : Prop where
  alone : ∀ p, (v.role p).active → v.Alone p
  looking : ∀ p rest, v.role p = .looking rest → ∀ q, v.parent q = some p → v.dead q → q ∈ rest
  clear : ∀ p, v.role p = .clear → ∀ q, v.parent q = some p → ¬ v.dead q
  waiting : ∀ p, v.role p = .waiting → ∀ q, v.parent q = some p → v.dead q →
    p = root ∧ ∃ e scan, v.role e = .handing scan ∧ p ∈ scan
  telling : ∀ p c scan, v.role p = .telling c scan →
    v.parent p = c ∧ ∀ r, c = some r → v.role r = .waiting → r ∈ scan
  told : ∀ p, v.role p = .told → ∀ r, v.parent p = some r → v.role r ≠ .waiting

namespace Inv

variable {root : α} {v v' : Vigil α}

variable {p : α}

theorem move (h : Inv root v) {b : Role α} (ha : b.active → v.Alone p)
    (hlook : ∀ rest, b = .looking rest → ∀ q, v.parent q = some p → v.dead q → q ∈ rest)
    (hclear : b = .clear ∨ b = .waiting → ∀ q, v.parent q = some p → ¬ v.dead q)
    (hwait : b = .waiting → v.Alone p)
    (hhand : ∀ scan, v.role p = .handing scan → ∀ r ∈ scan, r = root → v.role r = .waiting →
      ∃ scan', b = .handing scan' ∧ r ∈ scan')
    (htell : ∀ c scan, b = .telling c scan →
      v.parent p = c ∧ ∀ r, c = some r → v.role r = .waiting → r ∈ scan)
    (htold : b = .told → ∀ r, v.parent p = some r → v.role r ≠ .waiting) :
    Inv root { v with role := update v.role p b } := by
  have hself : ∀ {r : α}, r = p → update v.role p b r = b := fun hr => by rw [hr, update_self]
  have hother : ∀ {r : α}, r ≠ p → update v.role p b r = v.role r := fun hr => update_of_ne hr _ _
  constructor
  case alone =>
    intro r hr e he
    dsimp only at hr ⊢
    by_cases hrp : r = p
    · subst hrp
      rw [hother he]
      exact ha (hself rfl ▸ hr) e he
    · rw [hother hrp] at hr
      by_cases hep : e = p
      · rw [hself hep]
        exact fun hb => ha hb r hrp hr
      · rw [hother hep]
        exact h.alone r hr e he
  case looking =>
    intro r rest hr
    dsimp only at hr
    by_cases hrp : r = p
    · exact hrp ▸ hlook rest (hself hrp ▸ hr)
    · exact h.looking r rest (hother hrp ▸ hr)
  case clear =>
    intro r hr
    dsimp only at hr
    by_cases hrp : r = p
    · exact hrp ▸ hclear (.inl (hself hrp ▸ hr))
    · exact h.clear r (hother hrp ▸ hr)
  case waiting =>
    intro r hr q hq hd
    dsimp only at hr
    by_cases hrp : r = p
    · exact absurd hd (hclear (.inr (hself hrp ▸ hr)) q (hrp ▸ hq))
    · rw [hother hrp] at hr
      obtain ⟨hroot, e, scan, he, hmem⟩ := h.waiting r hr q hq hd
      refine ⟨hroot, ?_⟩
      by_cases hep : e = p
      · obtain ⟨scan', hb, hmem'⟩ := hhand scan (hep ▸ he) r hmem hroot hr
        exact ⟨p, scan', (hself rfl).trans hb, hmem'⟩
      · exact ⟨e, scan, (hother hep).trans he, hmem⟩
  case telling =>
    intro r c scan hr
    dsimp only at hr ⊢
    by_cases hrp : r = p
    · obtain ⟨hc, hscan⟩ := htell c scan (hself hrp ▸ hr)
      refine ⟨hrp ▸ hc, fun e he hw => hscan e he ?_⟩
      by_cases hep : e = p
      · rw [hself hep, ← hself hrp, hr] at hw
        cases hw
      · exact hother hep ▸ hw
    · rw [hother hrp] at hr
      obtain ⟨hc, hscan⟩ := h.telling r c scan hr
      refine ⟨hc, fun e he hw => ?_⟩
      by_cases hep : e = p
      · exact absurd (show (v.role r).active by rw [hr]; trivial)
          (hwait (hself hep ▸ hw) r hrp)
      · exact hscan e he (hother hep ▸ hw)
  case told =>
    intro r hr e he hw
    dsimp only at hr hw
    by_cases hrp : r = p
    · by_cases hep : e = p
      · rw [hself hep, ← hself hrp, hr] at hw
        cases hw
      · exact htold (hself hrp ▸ hr) e (hrp ▸ he) (hother hep ▸ hw)
    · rw [hother hrp] at hr
      by_cases hep : e = p
      · exact absurd (show (v.role r).active by rw [hr]; trivial)
          (hwait (hself hep ▸ hw) r hrp)
      · exact h.told r hr e he (hother hep ▸ hw)

theorem step (h : Inv root v) (hst : Step root v v') : Inv root v' := by
  cases hst with
  | @settle p hp =>
    refine h.move False.elim nofun nofun nofun (fun scan hs r hr => ?_) nofun nofun
    rw [hp scan hs] at hr
    cases hr
  | @look p rest hp halone hall =>
    exact h.move (fun _ => halone) (fun _ he q _ _ => Role.looking.inj he ▸ hall q) nofun nofun
      (by rw [hp]; nofun) nofun nofun
  | @pass p q rest hp hq =>
    refine h.move (fun _ => h.alone p (by rw [hp]; trivial)) (fun _ he r hr hd => ?_) nofun nofun
      (by rw [hp]; nofun) nofun nofun
    cases he
    exact List.mem_of_ne_of_mem (fun hrq : r = q => hq (hrq ▸ hr) (hrq ▸ hd)) (h.looking p _ hp r hr hd)
  | @clear p hp =>
    exact h.move (fun _ => h.alone p (by rw [hp]; trivial)) nofun
      (fun _ q hq hd => List.not_mem_nil (h.looking p _ hp q hq hd)) nofun (by rw [hp]; nofun) nofun
      nofun
  | @wait p hp =>
    have halone := h.alone p (by rw [hp]; trivial)
    exact h.move False.elim nofun (fun _ => h.clear p hp) (fun _ => halone) (by rw [hp]; nofun) nofun
      nofun
  | @handed p q scan hp hq =>
    refine h.move (fun _ => h.alone p (by rw [hp]; trivial)) nofun nofun nofun
      (fun _ he r hr hroot hw => ⟨scan, rfl, ?_⟩) nofun nofun
    cases hp.symm.trans he
    exact List.mem_of_ne_of_mem (fun hrq : r = q => hq (hrq ▸ hroot) (hrq ▸ hw)) hr
  | @tell p scan hp halone hall =>
    refine h.move (fun _ => halone) nofun nofun nofun (by rw [hp]; nofun) (fun c scan' he => ?_) nofun
    cases he
    exact ⟨rfl, fun r _ _ => hall r⟩
  | @telling p q c scan hp hq =>
    obtain ⟨hc, hscan⟩ := h.telling p c _ hp
    refine h.move (fun _ => h.alone p (by rw [hp]; trivial)) nofun nofun nofun (by rw [hp]; nofun)
      (fun c' scan' he => ?_) nofun
    cases he
    exact ⟨hc, fun r hr hw => List.mem_of_ne_of_mem (fun hrq : r = q => hq (hrq ▸ hr) (hrq ▸ hw))
      (hscan r hr hw)⟩
  | @told p c hp =>
    obtain ⟨hc, hscan⟩ := h.telling p c _ hp
    exact h.move (fun _ => h.alone p (by rw [hp]; trivial)) nofun nofun nofun (by rw [hp]; nofun)
      nofun fun _ r hr hw => List.not_mem_nil (hscan r (hc.symm.trans hr) hw)
  | @adopt p np halone hnp =>
    obtain ⟨h1, h2, h3, h4, h5, h6⟩ := h
    constructor <;> dsimp only [Alone] at * <;> grind [update_apply, Role.active]
  | @disown np hnp =>
    obtain ⟨h1, h2, h3, h4, h5, h6⟩ := h
    constructor <;> dsimp only [Alone] at * <;> grind [update_apply, Role.active]
  | @hand p q scan hp halone hall =>
    obtain ⟨h1, h2, h3, h4, h5, h6⟩ := h
    constructor
    case waiting =>
      intro r hr y hy hd
      refine ⟨?_, p, scan, update_self .., hall r⟩
      dsimp only at hr hy hd
      have hrp : r ≠ p := fun he => by rw [he, update_self] at hr; cases hr
      rw [update_of_ne hrp] at hr
      by_cases hyq : y = q
      · rw [hyq, update_self] at hy
        exact (Option.some.inj hy).symm
      · rw [update_of_ne hyq] at hy
        exact (h4 r hr y hy hd).1
    all_goals
      dsimp only [Alone] at *
      grind [update_apply, Role.active]
  | @die p hp =>
    obtain ⟨h1, h2, h3, h4, h5, h6⟩ := h
    constructor <;> dsimp only [Alone] at * <;> grind [update_apply, Role.active]

theorem run (h : Inv root v) (hr : ReflTransGen (Step root) v v') : Inv root v' := by
  induction hr with
  | refl => exact h
  | tail _ hst ih => exact ih.step hst

end Inv

end Vigil

end Xv6
