import Xv6.Files.Refs

/-!
# The calls keep the reference counts

Every call that moves references to files, on each of its paths, and the system of all
processes making such calls.
-/

namespace Xv6.Files

open Xv6.Lib Xv6.Lib.Eff
open Function (update_of_ne update_self)

variable {Page : Type} {s s' s'' : State Page} {held : FilePtr → Int} {p q : ProcPtr} {fd : Fd} {f g : FilePtr} {x : Page}

theorem SameFds.trans (first : SameFds s s') (second : SameFds s' s'') : SameFds s s'' :=
  ⟨second.1.trans first.1, second.2.trans first.2⟩

variable [DecidableEq Page]

/-- What follows a part of known balance. -/
theorem Total.after {α : Type} {m : M Page α} {Q : α → State Page → Prop} {new : List Page} {t : List (PageEvent Page)}
    (balanced : Balanced new s t s') (rest : Total m s' Q) :
    yields m (fun a s'' t' => Q a s'' ∧ Balanced new s (t ++ t') s'') (fun _ _ _ => False) s' := by
  refine yields_mono rest (fun a s'' t' post => ⟨post.1, ?_⟩) fun _ _ _ stops => stops
  simpa using balanced.trans post.2

/-! ## `pipealloc` -/

/-- `goto bad`: what has been allocated is closed again. -/
theorem bad_total (f0 f1 : Option FilePtr) (inv : Inv held s) (used : ∀ f, f0 = some f → 0 < held f)
    (used' : ∀ g, f1 = some g → 0 < (f0.elim held fun f => bump held f (-1)) g) :
    Total (do closeSome f0; closeSome f1; pure (none : Option (FilePtr × FilePtr))) s fun r s' =>
      r = none ∧ SameFds s s' ∧
        Inv (f1.elim (f0.elim held fun f => bump held f (-1)) fun g => bump (f0.elim held fun f => bump held f (-1)) g (-1)) s' := by
  refine (closeSome_total inv fun f is => inv.used_of_held (used f is)).bind fun _ s1 ⟨same, inv1⟩ => ?_
  refine (closeSome_total inv1 fun g is => inv1.used_of_held (used' g is)).bind fun _ s2 ⟨same', inv2⟩ => ?_
  exact .pure ⟨rfl, same.trans same', inv2⟩

/-- The state in which `pipealloc` returns the two ends. -/
theorem Inv.openPipe (inv : Inv held s) {f0 f1 : FilePtr} (apart : f1 ≠ f0) (used0 : (s.ftable f0).ref ≠ 0)
    (used1 : (s.ftable f1).ref ≠ 0) (plain0 : (s.ftable f0).type = .none) (plain1 : (s.ftable f1).type = .none)
    (closed : s.pipe x = ⟨false, false⟩) :
    Inv held (((s.setPipe x ⟨true, true⟩).setFile f0
      { s.ftable f0 with type := .pipe x, readable := true, writable := false }).setFile f1
      { s.ftable f1 with type := .pipe x, readable := false, writable := true }) := by
  -- first the end for reading, then the one for writing
  have reading : Inv held { s.setFile f0 { s.ftable f0 with type := .pipe x, readable := true, writable := false } with
      pipe := Function.update s.pipe x ⟨true, false⟩ } := by
    refine inv.retype _ _ used0 plain0 rfl (fun y w => ?_) fun y is => ?_
    · rcases eq_or_ne y x with rfl | ne
      · cases w <;> simp [Pipe.isOpen, closed]
      · simp [update_of_ne ne, ne.symm]
    · cases is
      simp [Pipe.isOpen, closed]
  have same : (s.setFile f0 { s.ftable f0 with type := .pipe x, readable := true, writable := false }).ftable f1 = s.ftable f1 :=
    update_of_ne apart ..
  refine reading.retype { s.ftable f1 with type := .pipe x, readable := false, writable := true }
    (Function.update s.pipe x ⟨true, true⟩) (by rwa [same]) (by rwa [same]) (by rw [same]) (fun y w => ?_) fun y is => ?_
  · rcases eq_or_ne y x with rfl | ne
    · cases w <;> simp [Pipe.isOpen]
    · simp [update_of_ne ne, ne.symm]
  · cases is
    simp [Pipe.isOpen]

/-- The new page is in use. -/
theorem Balanced.kalloc {pipe : Pipe} (closed : s.pipe x = ⟨false, false⟩) (isOpen : pipe.readopen = true)
    (now : s'.pipe = Function.update s.pipe x pipe) : Balanced [x] s [.kalloc x] s' := by
  intro y
  rcases eq_or_ne y x with rfl | ne
  · simp [State.alive, now, closed, isOpen]
  · simp [State.alive, now, update_of_ne ne, ne.symm]

/-- `pipealloc` makes a pipe that two new files refer to, or nothing. -/
theorem pipealloc_yields {page : Option Page} (inv : Inv held s) (closed : ∀ x, page = some x → s.pipe x = ⟨false, false⟩)
    (none_ : ∀ f, 0 ≤ held f) :
    yields (pipealloc page) (fun r s' t => SameFds s s' ∧ match r with
      | none => Inv held s' ∧ Balanced [] s t s'
      | some (f0, f1) => Inv (bump (bump held f0 1) f1 1) s' ∧ ∃ x, page = some x ∧ Balanced [x] s t s')
      (fun _ _ _ => False) s := by
  unfold pipealloc
  refine yields_then (filealloc_total inv) (fun _ _ _ stops => stops) fun f0 s1 t1 ⟨⟨same1, pipe1, post1⟩, bal1⟩ => ?_
  cases f0 with
  | none =>
    refine yields_bind (yields_pure ?_)
    refine yields_mono (Total.after bal1 (bad_total none none post1 nofun nofun)) ?_ fun _ _ _ stops => stops
    rintro _ s' t ⟨⟨rfl, same, inv'⟩, balanced⟩
    exact ⟨same1.trans same, inv', balanced⟩
  | some f0 =>
    obtain ⟨inv1, plain0, -, -⟩ := post1
    refine yields_then (filealloc_total inv1) (fun _ _ _ stops => stops) fun f1 s2 t2 ⟨⟨same2, pipe2, post2⟩, bal2⟩ => ?_
    have bal12 : Balanced [] s (t1 ++ t2) s2 := bal1.trans bal2
    simp only [← List.append_assoc]
    have held0 : 0 < bump held f0 1 f0 := by
      have := none_ f0
      simp only [bump, update_self]
      omega
    cases f1 with
    | none =>
      refine yields_mono (Total.after bal12 (bad_total (some f0) none post2 ?_ nofun)) ?_ fun _ _ _ stops => stops
      · rintro _ ⟨⟩
        exact held0
      · rintro _ s' t ⟨⟨rfl, same, inv'⟩, balanced⟩
        exact ⟨(same1.trans same2).trans same, by simpa using inv', balanced⟩
    | some f1 =>
      obtain ⟨inv2, plain1, free1, other⟩ := post2
      have apart : f1 ≠ f0 := by
        rintro rfl
        exact inv1.used_of_held held0 free1
      have used0 : 0 < bump (bump held f0 1) f1 1 f0 := by rwa [bump_apply _ f1, if_neg apart, add_zero]
      have used1 : 0 < bump (bump held f0 1) f1 1 f1 := by
        have := none_ f1
        simp only [bump_apply, if_neg apart.symm, if_true]
        omega
      cases page with
      | none =>
        refine yields_mono (Total.after bal12 (bad_total (some f0) (some f1) inv2 ?_ ?_)) ?_ fun _ _ _ stops => stops
        · rintro _ ⟨⟩
          exact used0
        · rintro _ ⟨⟩
          simpa only [Option.elim, bump_apply, if_neg apart.symm, add_zero] using used1
        · rintro _ s' t ⟨⟨rfl, same, inv'⟩, balanced⟩
          refine ⟨(same1.trans same2).trans same, ?_, balanced⟩
          have back : bump (bump (bump (bump held f0 1) f1 1) f0 (-1)) f1 (-1) = held := by
            funext g
            simp only [bump_apply]
            split_ifs <;> omega
          simpa only [Option.elim, back] using inv'
      | some x =>
        have closed2 : s2.pipe x = ⟨false, false⟩ := by
          rw [pipe2, pipe1]
          exact closed x rfl
        refine yields_bind (yields_emit (yields_update_bind (yields_update_bind (yields_update_bind (yields_pure ?_)))))
        refine ⟨same1.trans same2, ?_, x, rfl, ?_⟩
        · have opened := inv2.openPipe apart (inv2.used_of_held used0) (inv2.used_of_held used1)
            (by rwa [other f0 apart.symm]) plain1 closed2
          have untouched (file : File Page) : ((s2.setPipe x ⟨true, true⟩).setFile f0 file).ftable f1 = s2.ftable f1 :=
            update_of_ne apart ..
          simp only [untouched]
          exact opened
        · have last {s3 : State Page} (now : s3.pipe = Function.update s2.pipe x ⟨true, true⟩) :
              Balanced [x] s (t1 ++ t2 ++ [.kalloc x]) s3 := bal12.trans (Balanced.kalloc closed2 rfl now)
          exact last rfl

/-! ## The system calls -/

/-- Only the descriptors of `p` change. -/
def Own (p : ProcPtr) (s s' : State Page) : Prop := s'.live = s.live ∧ ∀ q ≠ p, s'.ofile q = s.ofile q

omit [DecidableEq Page] in
theorem Own.setFd (s : State Page) (p : ProcPtr) (fd : Fd) (f : Option FilePtr) : Own p s (s.setFd p fd f) :=
  ⟨rfl, fun _ ne => update_of_ne ne ..⟩

omit [DecidableEq Page] in
theorem SameFds.own (same : SameFds s s') (p : ProcPtr) : Own p s s' := ⟨same.2, fun _ _ => by rw [same.1]⟩

omit [DecidableEq Page] in
theorem Own.trans (first : Own p s s') (second : Own p s' s'') : Own p s s'' :=
  ⟨second.1.trans first.1, fun q ne => (second.2 q ne).trans (first.2 q ne)⟩

theorem argfd_total (n : Nat) : Total (argfd p n) s fun r s' => s' = s ∧ ∀ fd f, r = some (fd, f) → s.ofile p fd = some f := by
  unfold argfd
  refine yields_state_bind ?_
  split
  · rename_i bound
    refine Total.pure ⟨rfl, ?_⟩
    intro fd f is
    rw [Option.map_eq_some_iff] at is
    obtain ⟨g, found, pair⟩ := is
    cases pair
    exact found
  · exact Total.pure ⟨rfl, by simp⟩

theorem fdalloc_total : Total (fdalloc p f) s fun r s' => match r with
    | none => s' = s
    | some fd => s.ofile p fd = none ∧ s' = s.setFd p fd (some f) := by
  unfold fdalloc
  refine yields_state_bind ?_
  split
  · exact Total.pure rfl
  · rename_i fd found
    have free : s.ofile p fd = none := by simpa using List.find?_some found
    exact Total.last rfl ⟨free, rfl⟩

/-- A call leaves nothing in hand, and the descriptors of the other processes as they are. -/
abbrev Kept (p : ProcPtr) (s s' : State Page) : Prop := Inv (fun _ => 0) s' ∧ Own p s s'

theorem sysDup_total (inv : Inv (fun _ => 0) s) (n : Nat) : Total (sysDup p n) s fun _ s' => Kept p s s' := by
  unfold sysDup
  refine (argfd_total n).bind ?_
  rintro (_ | ⟨old, f⟩) s1 ⟨rfl, found⟩
  · exact Total.pure ⟨inv, rfl, fun _ _ => rfl⟩
  · have refers := found old f rfl
    refine fdalloc_total.bind fun r s2 post => ?_
    cases r with
    | none =>
      subst post
      exact Total.pure ⟨inv, rfl, fun _ _ => rfl⟩
    | some new =>
      obtain ⟨free, rfl⟩ := post
      -- the new descriptor has no reference of its own yet
      have inv2 : Inv (bump (fun _ => 0) f (-1)) (s1.setFd p new (some f)) := by
        refine inv.setFd free fun g => ?_
        simp only [bump_apply, Option.some.injEq, reduceCtorEq, if_false]
        split <;> omega
      refine (filedup_total inv2 (inv.used_of_fd refers le_rfl)).bind fun _ s3 ⟨same, _, inv3⟩ => Total.pure ⟨?_, ?_⟩
      · simpa using inv3
      · exact (Own.setFd ..).trans (same.own p)

theorem sysClose_total (inv : Inv (fun _ => 0) s) (n : Nat) : Total (sysClose p n) s fun _ s' => Kept p s s' := by
  unfold sysClose
  refine (argfd_total n).bind ?_
  rintro (_ | ⟨fd, f⟩) s1 ⟨rfl, found⟩
  · exact Total.pure ⟨inv, rfl, fun _ _ => rfl⟩
  · have refers := found fd f rfl
    have inv2 : Inv (bump (fun _ => 0) f 1) (s1.setFd p fd none) := by
      refine inv.setFd refers fun g => ?_
      simp only [bump_apply, Option.some.injEq, reduceCtorEq, if_false]
      omega
    refine Total.update rfl ((fileclose_total inv2 ?_).bind fun _ s3 ⟨same, inv3⟩ => Total.pure ⟨?_, ?_⟩)
    · exact inv.used_of_fd refers le_rfl
    · simpa using inv3
    · exact (Own.setFd ..).trans (same.own p)

theorem sysOpen_total (inv : Inv (fun _ => 0) s) (found readable writable : Bool) :
    Total (sysOpen p found readable writable) s fun _ s' => Kept p s s' := by
  unfold sysOpen
  cases found with
  | false => exact Total.pure ⟨inv, rfl, fun _ _ => rfl⟩
  | true =>
    refine (filealloc_total inv).bind ?_
    rintro r s1 ⟨same1, -, post⟩
    cases r with
    | none => exact Total.pure ⟨post, same1.own p⟩
    | some f =>
      obtain ⟨inv1, plain, -, -⟩ := post
      have used : (s1.ftable f).ref ≠ 0 := inv1.used_of_held (by simp [bump])
      refine fdalloc_total.bind fun r s2 post => ?_
      cases r with
      | none =>
        subst post
        refine (fileclose_total inv1 used).bind ?_
        rintro _ s3 ⟨same3, inv3⟩
        refine Total.pure ⟨?_, (same1.trans same3).own p⟩
        simpa using inv3
      | some fd =>
        obtain ⟨free, rfl⟩ := post
        have inv2 : Inv (fun _ => 0) (s1.setFd p fd (some f)) := by
          refine inv1.setFd free fun g => ?_
          simp only [bump_apply, Option.some.injEq, reduceCtorEq, if_false]
          omega
        refine Total.last rfl ⟨?_, ?_⟩
        · refine inv2.retype { s1.ftable f with type := .inode, readable := readable, writable := writable } s1.pipe
            used plain rfl (fun x w => ?_) fun x is => ?_
          · simp
            rfl
          · cases is
        · exact (same1.own p).trans (Own.setFd s1 p fd (some f))

/-- The two ends are closed when there is no descriptor for one of them. -/
theorem closeEnds_total {rf wf : FilePtr} (inv : Inv (bump (bump (fun _ => 0) rf 1) wf 1) s) :
    Total (do fileclose rf; fileclose wf; pure (none : Option (Fd × Fd))) s fun _ s' => SameFds s s' ∧ Inv (fun _ => 0) s' := by
  have used : 0 < bump (bump (fun _ => 0) rf 1) wf 1 rf := by
    simp only [bump_apply, if_true]
    split <;> omega
  refine (fileclose_total inv (inv.used_of_held used)).bind fun _ s1 ⟨same1, inv1⟩ => ?_
  have used' : 0 < bump (bump (bump (fun _ => 0) rf 1) wf 1) rf (-1) wf := by
    simp only [bump_apply, if_true]
    split <;> omega
  refine (fileclose_total inv1 (inv1.used_of_held used')).bind fun _ s2 ⟨same2, inv2⟩ => Total.pure ⟨same1.trans same2, ?_⟩
  have back : bump (bump (bump (bump (fun _ => 0) rf 1) wf 1) rf (-1)) wf (-1) = fun _ => 0 := by
    funext g
    simp only [bump_apply]
    split_ifs <;> omega
  rwa [back] at inv2

/-- `sys_pipe` after `pipealloc`. -/
theorem fdalloc2_total {rf wf : FilePtr} (inv : Inv (bump (bump (fun _ => 0) rf 1) wf 1) s) :
    Total (do
      let fd0 ← fdalloc p rf
      let fd1 ← (if fd0.isSome then fdalloc p wf else pure none)
      match fd0, fd1 with
      | some fd0, some fd1 => pure (some (fd0, fd1))
      | _, _ => do
        (match fd0 with
          | some fd0 => update fun s => s.setFd p fd0 none
          | none => pure ())
        fileclose rf
        fileclose wf
        pure none) s fun _ s' => Kept p s s' := by
  refine fdalloc_total.bind ?_
  rintro (_ | fd0) s1 post
  · subst post
    refine Total.bind (Q := fun r s' => r = none ∧ s' = s1) (Total.pure ⟨rfl, rfl⟩) ?_
    rintro _ s2 ⟨rfl, rfl⟩
    refine Total.bind (Q := fun _ s' => s' = s2) (Total.pure rfl) ?_
    rintro _ s3 rfl
    exact (closeEnds_total inv).mono fun _ _ closed => ⟨closed.2, closed.1.own p⟩
  · obtain ⟨free0, rfl⟩ := post
    have inv1 : Inv (bump (fun _ => 0) wf 1) (s.setFd p fd0 (some rf)) := by
      refine inv.setFd free0 fun g => ?_
      simp only [bump_apply, Option.some.injEq, reduceCtorEq, if_false]
      omega
    refine fdalloc_total.bind ?_
    rintro (_ | fd1) s2 post
    · subst post
      have inv2 : Inv (bump (bump (fun _ => 0) rf 1) wf 1) ((s.setFd p fd0 (some rf)).setFd p fd0 none) := by
        have refers : (s.setFd p fd0 (some rf)).ofile p fd0 = some rf := by simp [State.setFd]
        refine inv1.setFd refers fun g => ?_
        simp only [bump_apply, Option.some.injEq, reduceCtorEq, if_false]
        omega
      refine Total.update rfl ((closeEnds_total inv2).mono fun _ _ closed => ⟨closed.2, ?_⟩)
      exact ((Own.setFd ..).trans (Own.setFd ..)).trans (closed.1.own p)
    · obtain ⟨free1, rfl⟩ := post
      have inv2 : Inv (fun _ => 0) ((s.setFd p fd0 (some rf)).setFd p fd1 (some wf)) := by
        refine inv1.setFd free1 fun g => ?_
        simp only [bump_apply, Option.some.injEq, reduceCtorEq, if_false]
        omega
      exact Total.pure ⟨inv2, (Own.setFd ..).trans (Own.setFd ..)⟩

/-- The new page of a call to `pipe` that gets that far. -/
def NewPages (page : Option Page) (new : List Page) : Prop := new = [] ∨ ∃ x, page = some x ∧ new = [x]

theorem sysPipe_yields {page : Option Page} (inv : Inv (fun _ => 0) s)
    (closed : ∀ x, page = some x → s.pipe x = ⟨false, false⟩) :
    yields (sysPipe p page) (fun _ s' t => Kept p s s' ∧ ∃ new, NewPages page new ∧ Balanced new s t s')
      (fun _ _ _ => False) s := by
  unfold sysPipe
  refine yields_then (pipealloc_yields inv closed fun _ => le_rfl) (fun _ _ _ stops => stops) ?_
  rintro (_ | ⟨rf, wf⟩) s1 t1 ⟨same, inv1, balance⟩
  · exact yields_pure ⟨⟨inv1, same.own p⟩, [], .inl rfl, by simpa using balance⟩
  · obtain ⟨x, is, balanced⟩ := balance
    refine yields_mono (Total.after balanced (fdalloc2_total inv1)) ?_ fun _ _ _ stops => stops
    rintro _ s' t ⟨⟨inv', own⟩, balanced'⟩
    exact ⟨⟨inv', (same.own p).trans own⟩, [x], .inr ⟨x, is, rfl⟩, balanced'⟩

/-- The loop of `fork`: the child gets a copy of every descriptor. -/
theorem dupAll_total {child : ProcPtr} (inv : Inv (fun _ => 0) s) (empty : ∀ fd, s.ofile child fd = none) :
    Total (dupAll p child) s fun _ s' => Kept child s s' := by
  -- what is left of the child's table is empty
  let I (rest : List Fd) (s' : State Page) (t : List (PageEvent Page)) : Prop :=
    Kept child s s' ∧ rest.Nodup ∧ (∀ fd ∈ rest, s'.ofile child fd = none) ∧ Balanced [] s t s'
  have start : I (List.finRange NOFILE) s [] := ⟨⟨inv, rfl, fun _ _ => rfl⟩, List.nodup_finRange _, fun fd _ => empty fd, .quiet rfl⟩
  refine yields_mono (yields_forEach start ?_) (fun _ s' t done => ⟨done.1, done.2.2.2⟩) fun _ _ _ stops => stops
  rintro fd rest s1 t ⟨⟨inv1, own⟩, nodup, left, balanced⟩
  obtain ⟨fresh, nodup⟩ := List.nodup_cons.1 nodup
  refine yields_state_bind ?_
  split
  · exact yields_pure ⟨⟨inv1, own⟩, nodup, fun fd' member => left fd' (List.mem_cons_of_mem _ member), by simpa using balanced⟩
  · rename_i f refers
    refine yields_mono (Total.after balanced (?_ : Total _ s1 fun _ s' =>
        Kept child s s' ∧ ∀ fd' ∈ rest, s'.ofile child fd' = none)) ?_ fun _ _ _ stops => stops
    · refine (filedup_total inv1 (inv1.used_of_fd refers le_rfl)).bind ?_
      rintro _ s2 ⟨same, rfl, inv2⟩
      refine yields_update ⟨⟨⟨?_, ?_⟩, ?_⟩, .quiet rfl⟩
      · have free : s2.ofile child fd = none := by
          rw [same.1]
          exact left fd List.mem_cons_self
        refine inv2.setFd free fun g => ?_
        simp only [bump_apply, Option.some.injEq, reduceCtorEq, if_false]
        omega
      · exact (own.trans (same.own child)).trans (Own.setFd ..)
      · intro fd' member
        have ne : fd' ≠ fd := fun is => fresh (is ▸ member)
        simp only [State.setFd, update_self, update_of_ne ne]
        rw [same.1]
        exact left fd' (List.mem_cons_of_mem _ member)
    · rintro _ s' t' ⟨⟨kept, left'⟩, balanced'⟩
      exact ⟨kept, nodup, left', balanced'⟩

/-- The loop of `exit`: no descriptor is left. -/
theorem closeAll_total (inv : Inv (fun _ => 0) s) :
    Total (closeAll p) s fun _ s' => Kept p s s' ∧ ∀ fd, s'.ofile p fd = none := by
  let I (rest : List Fd) (s' : State Page) (t : List (PageEvent Page)) : Prop :=
    Kept p s s' ∧ (∀ fd ∉ rest, s'.ofile p fd = none) ∧ Balanced [] s t s'
  have start : I (List.finRange NOFILE) s [] :=
    ⟨⟨inv, rfl, fun _ _ => rfl⟩, fun fd out => absurd (List.mem_finRange fd) out, .quiet rfl⟩
  refine yields_mono (yields_forEach start ?_) (fun _ s' t done => ⟨⟨done.1, fun fd => done.2.1 fd List.not_mem_nil⟩, done.2.2⟩)
    fun _ _ _ stops => stops
  rintro fd rest s1 t ⟨⟨inv1, own⟩, closed, balanced⟩
  refine yields_state_bind ?_
  split
  · rename_i none_
    refine yields_pure ⟨⟨inv1, own⟩, fun fd' out => ?_, by simpa using balanced⟩
    by_cases is : fd' = fd
    · rw [is]
      exact none_
    · exact closed fd' (by simp [is, out])
  · rename_i f refers
    refine yields_mono (Total.after balanced (?_ : Total _ s1 fun _ s' =>
        Kept p s s' ∧ ∀ fd' ∉ rest, s'.ofile p fd' = none)) ?_ fun _ _ _ stops => stops
    · refine (fileclose_total inv1 (inv1.used_of_fd refers le_rfl)).bind ?_
      rintro _ s2 ⟨same, inv2⟩
      refine yields_update ⟨⟨⟨?_, ?_⟩, ?_⟩, .quiet rfl⟩
      · have still : s2.ofile p fd = some f := by
          rw [same.1]
          exact refers
        refine inv2.setFd still fun g => ?_
        simp only [bump_apply, Option.some.injEq, reduceCtorEq, if_false]
        split <;> omega
      · exact (own.trans (same.own p)).trans (Own.setFd ..)
      · intro fd' out
        by_cases is : fd' = fd
        · simp [State.setFd, is]
        · simp only [State.setFd, update_self, update_of_ne is]
          rw [same.1]
          exact closed fd' (by simp [is, out])
    · rintro _ s' t' ⟨⟨kept, closed'⟩, balanced'⟩
      exact ⟨kept, closed', balanced'⟩

/-! ## The system -/

/-- Between calls no reference is in hand, and the slots of no process have no descriptors. -/
structure Sound (s : State Page) : Prop where
  inv : Inv (fun _ => 0) s
  dead : ∀ p, s.live p = false → ∀ fd, s.ofile p fd = none

omit [DecidableEq Page] in
/-- A live process made a call. -/
theorem Kept.sound (sound : Sound s) (alive : s.live p = true) (kept : Kept p s s') : Sound s' := by
  refine ⟨kept.1, fun q gone fd => ?_⟩
  rw [kept.2.1] at gone
  have ne : q ≠ p := by
    rintro rfl
    rw [alive] at gone
    cases gone
  rw [kept.2.2 q ne]
  exact sound.dead q gone fd

/-- The page that a call may allocate. -/
def Call.page : Call Page → Option Page
  | .pipe page => page
  | _ => none

/-- One call: it returns unless the first process exits. -/
theorem code_yields {c : Call Page} (sound : Sound s) (enabled : Enabled s p c) :
    yields (code p c) (fun _ s' t => Sound s' ∧ ∃ new, NewPages c.page new ∧ Balanced new s t s')
      (fun e _ _ => e = .initExiting ∧ p = initproc) s := by
  have quiet {α : Type} {m : M Page α} {Q : State Page → Prop} (total : Total m s fun _ s' => Q s') :
      yields m (fun _ s' t => Q s' ∧ ∃ new, NewPages c.page new ∧ Balanced new s t s')
        (fun e _ _ => e = .initExiting ∧ p = initproc) s :=
    yields_mono total (fun _ _ _ post => ⟨post.1, [], .inl rfl, post.2⟩) fun _ _ _ stops => stops.elim
  have forget {α : Type} {m : M Page α} (kept : Total m s fun _ s' => Kept p s s') (alive : s.live p = true) :
      Total (do let _ ← m) s fun _ s' => Sound s' :=
    kept.bind fun _ s' kept => Total.pure (Kept.sound sound alive kept)
  cases c with
  | «open» found readable writable => exact quiet (forget (sysOpen_total sound.inv found readable writable) enabled)
  | dup fd => exact quiet (forget (sysDup_total sound.inv fd) enabled)
  | close fd => exact quiet (forget (sysClose_total sound.inv fd) enabled)
  | pipe page =>
    have alive : s.live p = true := by
      cases page with
      | none => exact enabled
      | some x => exact enabled.1
    have closed : ∀ x, page = some x → s.pipe x = ⟨false, false⟩ := by
      rintro x rfl
      exact enabled.2
    refine yields_then (sysPipe_yields sound.inv closed) (fun _ _ _ stops => stops.elim) ?_
    rintro _ s' t ⟨kept, new, post⟩
    refine yields_pure ⟨Kept.sound sound alive kept, new, post.1, ?_⟩
    simpa using post.2
  | fork child =>
    cases child with
    | none => exact quiet (Total.pure sound)
    | some child =>
      refine quiet ((dupAll_total sound.inv (sound.dead child enabled.2)).bind ?_)
      rintro _ s' ⟨inv, live, others⟩
      refine yields_update ⟨⟨⟨inv.refs, inv.unused, inv.ends, inv.one⟩, fun q gone fd => ?_⟩, .quiet rfl⟩
      have ne : q ≠ child := by
        rintro rfl
        simp at gone
      have wasGone : s.live q = false := by simpa [update_of_ne ne, live] using gone
      show s'.ofile q fd = none
      rw [others q ne]
      exact sound.dead q wasGone fd
  | exit =>
    refine yields_ite (fun first => yields_fail ⟨rfl, first⟩) fun _ => quiet ?_
    refine (closeAll_total sound.inv).bind ?_
    rintro _ s' ⟨⟨inv, live, others⟩, closed⟩
    refine yields_update ⟨⟨⟨inv.refs, inv.unused, inv.ends, inv.one⟩, fun q gone fd => ?_⟩, .quiet rfl⟩
    by_cases is : q = p
    · rw [is]
      exact closed fd
    · have wasGone : s.live q = false := by simpa [update_of_ne is, live] using gone
      show s'.ofile q fd = none
      rw [others q is]
      exact sound.dead q wasGone fd

/-- Inversion of a step. -/
theorem step_sound {e : ProcPtr × Call Page} (sound : Sound s) (taken : step s e = some s') :
    Sound s' ∧ Enabled s e.1 e.2 ∧ ∃ new, NewPages e.2.page new ∧ Balanced new s (pages s e) s' := by
  unfold step at taken
  split at taken
  · rename_i enabled
    have outcome := code_yields sound enabled
    unfold yields at outcome
    split at taken
    · rename_i u s1 t ran
      cases taken
      rw [ran] at outcome
      unfold pages
      rw [ran]
      exact ⟨outcome.1, enabled, outcome.2⟩
    · cases taken
  · cases taken

omit [DecidableEq Page] in
theorem sound_init : Sound (init : State Page) where
  inv := by
    refine ⟨fun f => ?_, fun _ _ => rfl, fun x w => ?_, fun f g x type => nomatch type⟩
    · have none_ : slots (init : State Page) f = 0 := occurrences_eq_zero_iff.2 fun i => nofun
      rw [none_]
      rfl
    · constructor
      · intro isOpen
        cases w <;> cases isOpen
      · rintro ⟨f, type, -⟩
        cases type
  dead := fun _ _ _ => rfl

/-- A descriptor refers to an end of the pipe. -/
def Refers (s : State Page) (x : Page) : Prop := ∃ p fd f, s.ofile p fd = some f ∧ (s.ftable f).type = .pipe x

omit [DecidableEq Page] in
/-- The page of a pipe is allocated as long as a descriptor refers to one of its ends. -/
theorem Sound.alive_iff (sound : Sound s) (x : Page) : s.alive x = 1 ↔ Refers s x := by
  have isOpen : s.alive x = 1 ↔ ∃ w, (s.pipe x).isOpen w = true := by
    simp only [State.alive, Bool.exists_bool, Pipe.isOpen]
    split <;> simp_all
  rw [isOpen]
  constructor
  · rintro ⟨w, isOpen⟩
    obtain ⟨f, type, -⟩ := (sound.inv.ends x w).1 isOpen
    have used : (s.ftable f).ref ≠ 0 := by
      intro zero
      rw [sound.inv.unused f zero] at type
      cases type
    have some_ : slots s f ≠ 0 := by
      have := sound.inv.refs f
      omega
    rw [slots, Ne, occurrences_eq_zero_iff] at some_
    push Not at some_
    obtain ⟨q, refers⟩ := some_
    exact ⟨q.1, q.2, f, refers, type⟩
  · rintro ⟨p, fd, f, -, type⟩
    exact ⟨(s.ftable f).writable, (sound.inv.ends x _).2 ⟨f, type, rfl⟩⟩

theorem sound_of_run {tr : List (State Page × ProcPtr × Call Page)} (run : Run step init tr s) : Sound s :=
  run.invariant_all Sound sound_init fun _ _ _ sound taken => (step_sound sound taken).1

omit [DecidableEq Page] in
theorem State.alive_le (s : State Page) (x : Page) : s.alive x ≤ 1 := by
  unfold State.alive
  split <;> omega

/-- A page that is allocated is one that no descriptor refers to. -/
theorem fresh_of_new {e : ProcPtr × Call Page} {new : List Page} (enabled : Enabled s e.1 e.2) (fresh : NewPages e.2.page new)
    (x : Page) : new.count x + s.alive x ≤ 1 := by
  obtain ⟨p, c⟩ := e
  rcases fresh with rfl | ⟨y, is, rfl⟩
  · simpa using s.alive_le x
  · cases c with
    | pipe page =>
      cases is
      rcases eq_or_ne y x with rfl | ne
      · simp [State.alive, enabled.2]
      · simpa [ne] using s.alive_le x
    | _ => cases is

/-- **Files and pipes.** In every state between calls the count of a file is the number of descriptors that refer to
it, and a file with count 0 has no type. The page of a pipe is freed once, by the call after which no descriptor refers
to one of its ends any more. -/
theorem files_and_pipes {tr : List (State Page × ProcPtr × Call Page)} (run : Run step init tr s) :
    (∀ f, (s.ftable f).ref = slots s f ∧ ((s.ftable f).ref = 0 → (s.ftable f).type = .none)) ∧
      ∀ t e t', (t, e) ∈ tr → step t e = some t' → ∀ x,
        (.kalloc x ∈ pages t e → ¬ Refers t x) ∧ (pages t e).count (.kfree x) ≤ 1 ∧
          ((pages t e).count (.kfree x) = 1 ↔ (Refers t x ∨ .kalloc x ∈ pages t e) ∧ ¬ Refers t' x) := by
  have sound := sound_of_run run
  refine ⟨fun f => ⟨?_, sound.inv.unused f⟩, fun t e t' member taken x => ?_⟩
  · have := sound.inv.refs f
    omega
  · obtain ⟨pre, _, _, _, reached, _⟩ := run.prefix_of_mem member
    have before := sound_of_run reached
    obtain ⟨after, enabled, new, fresh, balanced⟩ := step_sound before taken
    obtain ⟨allocated, freed⟩ := balanced x
    have room := fresh_of_new enabled fresh x
    have few := t'.alive_le x
    rw [← before.alive_iff, ← after.alive_iff, ← List.count_pos_iff, allocated]
    omega

/-- A parent and its child close the ends of a pipe. -/
def shareAndClose : List (ProcPtr × Call Unit) :=
  [(0, .pipe (some ())), (0, .fork (some 1)), (0, .close 0), (1, .close 1), (0, .close 1), (1, .exit)]

/-- Afterwards every `ref` counts the descriptors. -/
theorem files_and_pipes_shared : ∃ tr s, Run step (init : State Unit) tr s ∧ tr.map Prod.snd = shareAndClose ∧
    ∀ f, (s.ftable f).ref = slots s f := by
  have ends : (exec step (init : State Unit) shareAndClose).isSome = true := by decide +kernel
  obtain ⟨s, done⟩ := Option.isSome_iff_exists.1 ends
  refine ⟨_, s, run_of_exec done, record_events done, ?_⟩
  exact fun f => ((files_and_pipes (run_of_exec done)).1 f).1

example : (record step (init : State Unit) shareAndClose).map (fun q => pages q.1 q.2) =
    [[.kalloc ()], [], [], [], [], [.kfree ()]] := by decide +kernel

end Xv6.Files
