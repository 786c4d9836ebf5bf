import Xv6.Files.Table
import Xv6.Lib.Count

/-!
# Reference counts of files and the life of pipes

`held f` is the number of references to `f` that the running call has in hand, beyond
those in descriptors; it is negative between the closing of a file and the clearing of
the descriptor that referred to it.
-/

namespace Xv6.Files

open Xv6.Lib Xv6.Lib.Eff
open Function (update_of_ne update_self)

variable {Page : Type} {s s' : State Page} {held : FilePtr → Int} {p q : ProcPtr} {fd : Fd} {f g : FilePtr} {x : Page}

/-! ## Counting descriptors -/

/-- The number of descriptors of all processes that refer to `f`. -/
def slots (s : State Page) (f : FilePtr) : Nat := occurrences (fun q : ProcPtr × Fd => s.ofile q.1 q.2) (some f)

theorem slots_setFd (s : State Page) (p : ProcPtr) (fd : Fd) (new : Option FilePtr) (f : FilePtr) :
    slots (s.setFd p fd new) f + (if s.ofile p fd = some f then 1 else 0) =
      slots s f + (if new = some f then 1 else 0) := by
  have table : (fun q : ProcPtr × Fd => (s.setFd p fd new).ofile q.1 q.2) =
      Function.update (fun q : ProcPtr × Fd => s.ofile q.1 q.2) (p, fd) new := by
    funext q
    simp only [State.setFd, Function.update_apply, Prod.ext_iff]
    split_ifs with sameProc both sameFd
    all_goals simp_all
  unfold slots
  rw [table]
  exact occurrences_update (fun q : ProcPtr × Fd => s.ofile q.1 q.2) (p, fd) new (some f)

theorem slots_pos (refers : s.ofile p fd = some f) : 0 < slots s f :=
  occurrences_pos (h := fun q : ProcPtr × Fd => s.ofile q.1 q.2) (i := (p, fd)) refers

/-! ## The invariant -/

/-- Whether an end of a pipe is open. -/
def Pipe.isOpen (pipe : Pipe) : Bool → Bool
  | true => pipe.writeopen
  | false => pipe.readopen

/-- One end is closed. -/
def Pipe.shut (pipe : Pipe) (writable : Bool) : Pipe :=
  if writable then { pipe with writeopen := false } else { pipe with readopen := false }

theorem Pipe.isOpen_shut (pipe : Pipe) (writable w : Bool) :
    (pipe.shut writable).isOpen w = true ↔ pipe.isOpen w = true ∧ writable ≠ w := by
  cases writable <;> cases w <;> simp [Pipe.shut, Pipe.isOpen]

structure Inv (held : FilePtr → Int) (s : State Page) : Prop where
  refs : ∀ f, ((s.ftable f).ref : Int) = slots s f + held f
  unused : ∀ f, (s.ftable f).ref = 0 → (s.ftable f).type = .none
  ends : ∀ x w, (s.pipe x).isOpen w = true ↔ ∃ f, (s.ftable f).type = .pipe x ∧ (s.ftable f).writable = w
  one : ∀ f g x, (s.ftable f).type = .pipe x → (s.ftable g).type = .pipe x →
    (s.ftable f).writable = (s.ftable g).writable → f = g

/-- The page of the pipe is allocated. -/
def State.alive (s : State Page) (x : Page) : Nat := if (s.pipe x).readopen ∨ (s.pipe x).writeopen then 1 else 0

/-- The pages in `new` are allocated, and every page is freed as often as it is allocated, but for the open pipes. -/
def Balanced [DecidableEq Page] (new : List Page) (s : State Page) (t : List (PageEvent Page)) (s' : State Page) : Prop :=
  ∀ x, t.count (.kalloc x) = new.count x ∧ t.count (.kfree x) + s'.alive x = new.count x + s.alive x

section
variable [DecidableEq Page]

theorem Balanced.quiet (same : s'.pipe = s.pipe) : Balanced [] s [] s' := by
  intro x
  simp [State.alive, same]

theorem Balanced.trans {s'' : State Page} {new new' : List Page} {t t' : List (PageEvent Page)} (first : Balanced new s t s')
    (second : Balanced new' s' t' s'') : Balanced (new ++ new') s (t ++ t') s'' := by
  intro x
  have := first x
  have := second x
  simp only [List.count_append]
  omega

end

/-- A code that keeps files and pipes as they should be. -/
abbrev Total {α : Type} [DecidableEq Page] (m : M Page α) (s : State Page) (Q : α → State Page → Prop) : Prop :=
  yields m (fun a s' t => Q a s' ∧ Balanced [] s t s') (fun _ _ _ => False) s

/-! ## References in hand -/

def bump (held : FilePtr → Int) (f : FilePtr) (n : Int) : FilePtr → Int := Function.update held f (held f + n)

theorem bump_apply (held : FilePtr → Int) (f : FilePtr) (n : Int) (g : FilePtr) :
    bump held f n g = held g + if f = g then n else 0 := by
  rcases eq_or_ne g f with rfl | ne
  · simp [bump]
  · simp [bump, update_of_ne ne, ne.symm]

@[simp]
theorem bump_back (held : FilePtr → Int) (f : FilePtr) (n : Int) : bump (bump held f n) f (-n) = held := by
  funext g
  simp only [bump_apply]
  split <;> omega

@[simp]
theorem bump_forth (held : FilePtr → Int) (f : FilePtr) (n : Int) : bump (bump held f (-n)) f n = held := by
  funext g
  simp only [bump_apply]
  split <;> omega

section
variable (inv : Inv held s)
include inv

theorem Inv.used_of_held (more : 0 < held f) : (s.ftable f).ref ≠ 0 := by
  have := inv.refs f
  omega

theorem Inv.used_of_fd (refers : s.ofile p fd = some f) (more : 0 ≤ held f) : (s.ftable f).ref ≠ 0 := by
  have := inv.refs f
  have := slots_pos refers
  omega

/-- Only the count of one file changes. -/
theorem Inv.setRef {n : Nat} {m : Int} (count : (n : Int) = (s.ftable f).ref + m) (positive : n ≠ 0) :
    Inv (bump held f m) (s.setFile f { s.ftable f with ref := n }) := by
  have type (g : FilePtr) : ((s.setFile f { s.ftable f with ref := n }).ftable g).type = (s.ftable g).type := by
    rcases eq_or_ne g f with rfl | ne
    · simp [State.setFile]
    · simp [State.setFile, update_of_ne ne]
  have writable (g : FilePtr) : ((s.setFile f { s.ftable f with ref := n }).ftable g).writable = (s.ftable g).writable := by
    rcases eq_or_ne g f with rfl | ne
    · simp [State.setFile]
    · simp [State.setFile, update_of_ne ne]
  refine ⟨?_, ?_, ?_, ?_⟩
  · intro g
    have old := inv.refs g
    show _ = (slots s g : Int) + _
    rcases eq_or_ne g f with rfl | ne
    · simp only [State.setFile, bump, update_self]
      omega
    · simp only [State.setFile, bump, update_of_ne ne]
      exact old
  · intro g zero
    rw [type]
    rcases eq_or_ne g f with rfl | ne
    · simp only [State.setFile, update_self] at zero
      exact absurd zero positive
    · simp only [State.setFile, update_of_ne ne] at zero
      exact inv.unused g zero
  · intro x w
    simp only [type, writable]
    exact inv.ends x w
  · intro g h x
    simp only [type, writable]
    exact inv.one g h x

/-- A descriptor takes over a reference, or gives one up. -/
theorem Inv.setFd {old new : Option FilePtr} (was : s.ofile p fd = old) {held' : FilePtr → Int}
    (moved : ∀ f, held' f + (if new = some f then 1 else 0) = held f + (if old = some f then 1 else 0)) :
    Inv held' (s.setFd p fd new) := by
  refine ⟨fun f => ?_, inv.unused, inv.ends, inv.one⟩
  have count := slots_setFd s p fd new f
  rw [was] at count
  have := inv.refs f
  have := moved f
  show ((s.ftable f).ref : Int) = _
  have cast : ((slots (s.setFd p fd new) f : Nat) : Int) + (if old = some f then 1 else 0) =
      slots s f + (if new = some f then 1 else 0) := by exact_mod_cast count
  omega

/-- A file loses its last reference and its end of the pipe, if it is one, is closed. -/
theorem Inv.close (last : (s.ftable f).ref = 1) {pipe : Page → Pipe}
    (ends : ∀ x w, (pipe x).isOpen w = true ↔
      (s.pipe x).isOpen w = true ∧ ¬ ((s.ftable f).type = .pipe x ∧ (s.ftable f).writable = w)) :
    Inv (bump held f (-1)) { s.setFile f { s.ftable f with ref := 0, type := .none } with pipe := pipe } := by
  have other {g : FilePtr} (ne : g ≠ f) :
      (s.setFile f { s.ftable f with ref := 0, type := .none }).ftable g = s.ftable g := update_of_ne ne ..
  have self : (s.setFile f { s.ftable f with ref := 0, type := .none }).ftable f = { s.ftable f with ref := 0, type := .none } :=
    update_self ..
  have ofPipe {g : FilePtr} {x : Page}
      (type : ((s.setFile f { s.ftable f with ref := 0, type := .none }).ftable g).type = .pipe x) : g ≠ f := by
    rintro rfl
    rw [self] at type
    cases type
  refine ⟨fun g => ?_, fun g => ?_, fun x w => ?_, ?_⟩
  · have old := inv.refs g
    show _ = (slots s g : Int) + _
    rcases eq_or_ne g f with rfl | ne
    · rw [self]
      simp only [bump, update_self]
      omega
    · rw [other ne]
      simpa only [bump, update_of_ne ne] using old
  · rcases eq_or_ne g f with rfl | ne
    · rw [self]
      exact fun _ => rfl
    · rw [other ne]
      exact inv.unused g
  · rw [ends, inv.ends]
    constructor
    · rintro ⟨⟨g, type, writable⟩, notThis⟩
      have ne : g ≠ f := by
        rintro rfl
        exact notThis ⟨type, writable⟩
      exact ⟨g, by rw [other ne]; exact ⟨type, writable⟩⟩
    · rintro ⟨g, type, writable⟩
      have ne := ofPipe type
      rw [other ne] at type writable
      exact ⟨⟨g, type, writable⟩, fun this => ne (inv.one g f x type this.1 (writable.trans this.2.symm))⟩
  · intro g h x typeG typeH
    have neG := ofPipe typeG
    have neH := ofPipe typeH
    simp only [other neG, other neH] at typeG typeH ⊢
    exact inv.one g h x typeG typeH

/-- A file in use that has no type yet gets one, and with it an end of a pipe may be opened. -/
theorem Inv.retype (file : File Page) (pipe : Page → Pipe) (used : (s.ftable f).ref ≠ 0)
    (plain : (s.ftable f).type = .none) (ref : file.ref = (s.ftable f).ref)
    (ends : ∀ x w, (pipe x).isOpen w = true ↔ (s.pipe x).isOpen w = true ∨ (file.type = .pipe x ∧ file.writable = w))
    (fresh : ∀ x, file.type = .pipe x → (s.pipe x).isOpen file.writable = false) :
    Inv held { s.setFile f file with pipe := pipe } := by
  have self : (s.setFile f file).ftable f = file := update_self ..
  have other {g : FilePtr} (ne : g ≠ f) : (s.setFile f file).ftable g = s.ftable g := update_of_ne ne ..
  -- no other file is the end that `f` becomes
  have alone {g : FilePtr} {x : Page} (ne : g ≠ f) (mine : file.type = .pipe x)
      (its : ((s.setFile f file).ftable g).type = .pipe x) : ((s.setFile f file).ftable g).writable ≠ file.writable := by
    rw [other ne] at its ⊢
    intro same
    have isOpen := (inv.ends x _).2 ⟨g, its, rfl⟩
    rw [same, fresh x mine] at isOpen
    cases isOpen
  refine ⟨fun g => ?_, fun g => ?_, fun x w => ?_, fun g h x typeG typeH same => ?_⟩
  · have old := inv.refs g
    show _ = (slots s g : Int) + _
    rcases eq_or_ne g f with rfl | ne
    · rw [self, ref]
      exact old
    · rw [other ne]
      exact old
  · rcases eq_or_ne g f with rfl | ne
    · rw [self, ref]
      exact fun zero => absurd zero used
    · rw [other ne]
      exact inv.unused g
  · rw [ends, inv.ends]
    constructor
    · rintro (⟨g, type, writable⟩ | mine)
      · have ne : g ≠ f := by
          rintro rfl
          rw [plain] at type
          cases type
        exact ⟨g, by rw [other ne]; exact ⟨type, writable⟩⟩
      · exact ⟨f, by rw [self]; exact mine⟩
    · rintro ⟨g, its⟩
      rcases eq_or_ne g f with rfl | ne
      · rw [self] at its
        exact .inr its
      · rw [other ne] at its
        exact .inl ⟨g, its⟩
  · rcases eq_or_ne g f with isG | neG <;> rcases eq_or_ne h f with isH | neH
    · exact isG.trans isH.symm
    · rw [isG, self] at typeG same
      exact absurd same.symm (alone neH typeG typeH)
    · rw [isH, self] at typeH same
      exact absurd same (alone neG typeH typeG)
    · simp only [other neG, other neH] at typeG typeH same
      exact inv.one g h x typeG typeH same

end

/-! ## The functions -/

/-- The descriptors and the processes stay as they are. -/
def SameFds (s s' : State Page) : Prop := s'.ofile = s.ofile ∧ s'.live = s.live

section
variable [DecidableEq Page]

theorem filealloc_total (inv : Inv held s) : Total filealloc s fun r s' =>
    SameFds s s' ∧ s'.pipe = s.pipe ∧ match r with
      | none => Inv held s'
      | some f => Inv (bump held f 1) s' ∧ (s'.ftable f).type = .none ∧ (s.ftable f).ref = 0 ∧
        ∀ g ≠ f, s'.ftable g = s.ftable g := by
  unfold filealloc
  refine yields_state_bind ?_
  split
  · exact yields_pure ⟨⟨⟨rfl, rfl⟩, rfl, inv⟩, .quiet rfl⟩
  · rename_i f found
    have free : (s.ftable f).ref = 0 := by simpa using List.find?_some found
    refine yields_update_bind (yields_pure ⟨⟨⟨rfl, rfl⟩, rfl, ?_⟩, .quiet rfl⟩)
    refine ⟨inv.setRef (by rw [free]; rfl) one_ne_zero, ?_, free, fun g ne => update_of_ne ne ..⟩
    simpa [State.setFile] using inv.unused f free

theorem filedup_total (inv : Inv held s) (open_ : (s.ftable f).ref ≠ 0) : Total (filedup f) s fun r s' =>
    SameFds s s' ∧ r = f ∧ Inv (bump held f 1) s' := by
  unfold filedup
  refine yields_state_bind (yields_ite (fun low => absurd low (by omega)) fun _ => ?_)
  exact yields_update_bind (yields_pure ⟨⟨⟨rfl, rfl⟩, rfl, inv.setRef (by simp) (Nat.succ_ne_zero _)⟩, .quiet rfl⟩)

/-- Closing the file of one end of a pipe. -/
theorem pipeclose_total (inv : Inv held s) (last : (s.ftable f).ref = 1) (type : (s.ftable f).type = .pipe x) :
    yields (pipeclose x (s.ftable f).writable)
      (fun _ s' t => (SameFds s s' ∧ Inv (bump held f (-1)) s') ∧ Balanced [] s t s') (fun _ _ _ => False)
      (s.setFile f { s.ftable f with ref := 0, type := .none }) := by
  have wasOpen : (s.pipe x).isOpen (s.ftable f).writable = true := (inv.ends x _).2 ⟨f, type, rfl⟩
  have closed : Inv (bump held f (-1)) ((s.setFile f { s.ftable f with ref := 0, type := .none }).setPipe x
      ((s.pipe x).shut (s.ftable f).writable)) := by
    refine inv.close last fun y w => ?_
    rcases eq_or_ne y x with rfl | ne
    · rw [State.setFile, update_self, Pipe.isOpen_shut, type]
      simp
    · rw [State.setFile, update_of_ne ne, type]
      simp [ne.symm]
  unfold pipeclose
  refine yields_update_bind (yields_state_bind ?_)
  have alive : s.alive x = 1 := by
    cases w : (s.ftable f).writable <;> rw [w] at wasOpen <;> simp_all [State.alive, Pipe.isOpen]
  have others (t : List (PageEvent Page)) (here : ∀ y, t.count (.kalloc y) = 0)
      (there : ∀ y ≠ x, t.count (.kfree y) = 0)
      (this : t.count (.kfree x) + ((s.setFile f { s.ftable f with ref := 0, type := .none }).setPipe x
        ((s.pipe x).shut (s.ftable f).writable)).alive x = 1) :
      Balanced [] s t ((s.setFile f { s.ftable f with ref := 0, type := .none }).setPipe x
        ((s.pipe x).shut (s.ftable f).writable)) := by
    intro y
    refine ⟨here y, ?_⟩
    rcases eq_or_ne y x with rfl | ne
    · rw [this, alive]
      rfl
    · rw [there y ne]
      simp [State.alive, State.setPipe, State.setFile, update_of_ne ne]
  refine yields_ite (fun both => ?_) fun open_ => ?_
  · refine yields_emit ⟨⟨⟨rfl, rfl⟩, closed⟩, others _ ?_ ?_ ?_⟩
    · intro y
      simp
    · intro y ne
      simp [ne.symm]
    · have dead : ((s.setFile f { s.ftable f with ref := 0, type := .none }).setPipe x
          ((s.pipe x).shut (s.ftable f).writable)).alive x = 0 := by
        refine if_neg (not_or.2 ⟨?_, ?_⟩)
        · exact Bool.eq_false_iff.1 both.1
        · exact Bool.eq_false_iff.1 both.2
      rw [dead]
      simp
  · refine yields_pure ⟨⟨⟨rfl, rfl⟩, closed⟩, others _ ?_ ?_ ?_⟩
    · simp
    · simp
    · have still : ((s.setFile f { s.ftable f with ref := 0, type := .none }).setPipe x
          ((s.pipe x).shut (s.ftable f).writable)).alive x = 1 := by
        refine if_pos ?_
        by_contra gone
        rw [not_or] at gone
        exact open_ ⟨Bool.eq_false_iff.2 gone.1, Bool.eq_false_iff.2 gone.2⟩
      rw [still]
      simp

theorem fileclose_total (inv : Inv held s) (open_ : (s.ftable f).ref ≠ 0) : Total (fileclose f) s fun _ s' =>
    SameFds s s' ∧ Inv (bump held f (-1)) s' := by
  unfold fileclose
  refine yields_state_bind (yields_ite (fun low => absurd low (by omega)) fun _ => yields_ite (fun more => ?_) fun last => ?_)
  · exact yields_update ⟨⟨⟨rfl, rfl⟩, inv.setRef (by omega) (by omega)⟩, .quiet rfl⟩
  · have one : (s.ftable f).ref = 1 := by omega
    refine yields_update_bind ?_
    split
    · rename_i x type
      exact pipeclose_total inv one type
    all_goals
      rename_i type
      refine yields_pure ⟨⟨⟨rfl, rfl⟩, ?_⟩, .quiet rfl⟩
      have same : ∀ x w, (s.pipe x).isOpen w = true ↔
          (s.pipe x).isOpen w = true ∧ ¬ ((s.ftable f).type = .pipe x ∧ (s.ftable f).writable = w) := by
        intro x w
        rw [type]
        exact ⟨fun isOpen => ⟨isOpen, fun this => nomatch this.1⟩, And.left⟩
      exact inv.close one same

theorem Total.bind {α β : Type} {m : M Page α} {k : α → M Page β} {Q : α → State Page → Prop} {R : β → State Page → Prop}
    (first : Total m s Q) (rest : ∀ a s', Q a s' → Total (k a) s' R) : Total (m >>= k) s R := by
  refine yields_then first (fun _ _ _ stops => stops) fun a s' t ⟨post, balanced⟩ => ?_
  exact yields_mono (rest a s' post) (fun _ _ _ ⟨post', balanced'⟩ => ⟨post', balanced.trans balanced'⟩) fun _ _ _ stops => stops

theorem Total.mono {α : Type} {m : M Page α} {Q R : α → State Page → Prop} (h : Total m s Q)
    (weaker : ∀ a s', Q a s' → R a s') : Total m s R :=
  yields_mono h (fun a s' _ post => ⟨weaker a s' post.1, post.2⟩) fun _ _ _ stops => stops

theorem Total.pure {α : Type} {a : α} {Q : α → State Page → Prop} (h : Q a s) : Total (Pure.pure a) s Q :=
  yields_pure ⟨h, .quiet rfl⟩

theorem Total.update {α : Type} {k : Unit → M Page α} {Q : α → State Page → Prop} {g : State Page → State Page}
    (same : (g s).pipe = s.pipe) (rest : Total (k ()) (g s) Q) : Total (Eff.update g >>= k) s Q :=
  Total.bind (Q := fun _ s' => s' = g s) (yields_update ⟨rfl, .quiet same⟩) fun _ _ is => is ▸ rest

theorem Total.last {α : Type} {a : α} {Q : α → State Page → Prop} {g : State Page → State Page}
    (same : (g s).pipe = s.pipe) (post : Q a (g s)) : Total (do Eff.update g; Pure.pure a) s Q :=
  .update same (.pure post)

theorem closeSome_total {f : Option FilePtr} (inv : Inv held s) (used : ∀ g, f = some g → (s.ftable g).ref ≠ 0) :
    Total (closeSome f) s fun _ s' => SameFds s s' ∧ Inv (f.elim held fun g => bump held g (-1)) s' := by
  cases f with
  | none => exact .pure ⟨⟨rfl, rfl⟩, inv⟩
  | some f => exact fileclose_total inv (used f rfl)

end

end Xv6.Files
