import Xv6.Bio.Machine

/-!
# The invariant of the buffer cache

The list contains every buffer, no block is in two buffers, and the busy buffers
are those that processes hold, each held by one process. A process in the loops of
`bget` also knows what it has passed: no buffer with its block in the first loop,
only busy or dirty buffers in the second.
-/

namespace Xv6.Bio

open Xv6.Lib

variable {P D : Type} {disksize : Nat} {s s' : State P D} {l l' : List BufPtr} {e : Event P D} {p q : P} {b : BufPtr}

namespace State

def key (s : State P D) (b : BufPtr) : BitVec 32 × BitVec 32 := (s.cache.buf b).key

def busy (s : State P D) (b : BufPtr) : Bool := (s.cache.buf b).flags.busy

def dirty (s : State P D) (b : BufPtr) : Bool := (s.cache.buf b).flags.dirty

def valid (s : State P D) (b : BufPtr) : Bool := (s.cache.buf b).flags.valid

/-- The buffer cannot be recycled. -/
def Taken (s : State P D) (b : BufPtr) : Prop := s.busy b = true ∨ s.dirty b = true

end State

/-- What a process inside `bio.c` knows, the list being `l`. -/
def CallOk (s : State P D) (l : List BufPtr) (p : P) : Call → Prop
  | .idle | .bget _ _ | .asleep _ _ _ | .panic _ => True
  | .scan dev sector cur => s.lock = some p ∧
    ∃ before after, l = before ++ after ∧ cur = after.head? ∧ ∀ b ∈ before, s.key b ≠ (dev, sector)
  | .recycle dev sector cur => s.lock = some p ∧ (∀ b, s.key b ≠ (dev, sector)) ∧
    ∃ before after, l.reverse = before ++ after ∧ cur = after.head? ∧ ∀ b ∈ before, s.Taken b
  | .bread dev sector b => b ∈ s.held p ∧ s.key b = (dev, sector)
  | .bwrite b | .brelse b => b ∈ s.held p

structure Inv (s : State P D) (l : List BufPtr) : Prop where
  ring : s.cache.Ring l
  all : ∀ b, b ∈ l
  unique : ∀ b b', (s.cache.buf b).dev ≠ -1 → s.key b = s.key b' → b = b'
  busy : ∀ b, s.busy b = true ↔ ∃ p, b ∈ s.held p
  one : ∀ p q b, b ∈ s.held p → b ∈ s.held q → p = q
  nodup : ∀ p, (s.held p).Nodup
  calls : ∀ p, CallOk s l p (s.call p)

/-- What a process knows survives the steps of the others: they do not change the list, the blocks or the
busy buffers while it holds the lock. -/
theorem CallOk.keep {c : Call} (ok : CallOk s l q c) (lock : s.lock = some q → s'.lock = some q)
    (list : s.lock = some q → l' = l) (keys : s.lock = some q → ∀ b, s'.key b = s.key b)
    (taken : s.lock = some q → ∀ b, s.Taken b → s'.Taken b) (held : s'.held q = s.held q)
    (owned : ∀ b ∈ s.held q, s'.key b = s.key b) : CallOk s' l' q c := by
  cases c with
  | idle | bget | asleep | panic => trivial
  | scan dev sector cur =>
    obtain ⟨mine, before, after, split, at_, passed⟩ := ok
    refine ⟨lock mine, before, after, (list mine).trans split, at_, ?_⟩
    intro b member
    rw [keys mine]
    exact passed b member
  | recycle dev sector cur =>
    obtain ⟨mine, fresh, before, after, split, at_, passed⟩ := ok
    refine ⟨lock mine, ?_, before, after, by rw [list mine]; exact split, at_, fun b member => taken mine b (passed b member)⟩
    intro b
    rw [keys mine]
    exact fresh b
  | bread dev sector b =>
    obtain ⟨mine, block⟩ := ok
    exact ⟨held.symm ▸ mine, (owned b mine).trans block⟩
  | bwrite b | brelse b =>
    show b ∈ s'.held q
    rw [held]
    exact ok

/-! ## Steps that move a process or write to its buffers -/

/-- The process goes elsewhere, and may take or release the lock that no other process holds. -/
theorem Inv.move (inv : Inv s l) (cache : s'.cache = s.cache) (held : s'.held = s.held)
    (call : ∀ q ≠ p, s'.call q = s.call q) (lock : ∀ q ≠ p, s.lock = some q → s'.lock = some q)
    (ok : CallOk s' l p (s'.call p)) : Inv s' l where
  ring := by rw [cache]; exact inv.ring
  all := inv.all
  unique := by simpa only [State.key, cache] using inv.unique
  busy := by simpa only [State.busy, cache, held] using inv.busy
  one := by simpa only [held] using inv.one
  nodup := by simpa only [held] using inv.nodup
  calls q := by
    rcases eq_or_ne q p with rfl | ne
    · exact ok
    · have keys (b : BufPtr) : s'.key b = s.key b := by rw [State.key, cache]; rfl
      rw [call q ne]
      refine (inv.calls q).keep (lock q ne) (fun _ => rfl) (fun _ => keys) (fun _ b taken => ?_) (congrFun held q)
        fun b _ => keys b
      · unfold State.Taken State.busy State.dirty at *
        rwa [cache]

/-- The owner of a buffer writes to it, but neither to its block number nor to `B_BUSY`. -/
theorem Inv.touch (inv : Inv s l) (owned : b ∈ s.held p) (f : Buf D → Buf D)
    (key : (f (s.cache.buf b)).key = (s.cache.buf b).key)
    (busy : (f (s.cache.buf b)).flags.busy = (s.cache.buf b).flags.busy) : Inv (s.modify b f) l := by
  have keys (b' : BufPtr) : (s.modify b f).key b' = s.key b' := Cache.modify_data f Buf.key key b'
  have busys (b' : BufPtr) : (s.modify b f).busy b' = s.busy b' := Cache.modify_data f (·.flags.busy) busy b'
  refine ⟨inv.ring.of_links rfl rfl, inv.all, ?_, ?_, inv.one, inv.nodup, ?_⟩
  · intro b1 b2 named same
    rw [keys, keys] at same
    refine inv.unique b1 b2 ?_ same
    have dev : ((s.modify b f).cache.buf b1).dev = (s.cache.buf b1).dev := congrArg Prod.fst (keys b1)
    rwa [dev] at named
  · intro b'
    rw [busys]
    exact inv.busy b'
  · intro q
    refine (inv.calls q).keep id (fun _ => rfl) (fun _ => keys) (fun _ b' taken => ?_) rfl fun b' _ => keys b'
    rcases eq_or_ne b' b with rfl | ne
    · -- the buffer is busy, before and after
      exact .inl ((busys b').trans ((inv.busy b').2 ⟨p, owned⟩))
    · unfold State.Taken State.busy State.dirty at *
      rwa [State.modify, Cache.modify_buf_ne ne]

theorem wakeup_ok {c : Call} (ok : CallOk s l q c) : CallOk s l q (State.wakeup b c) := by
  unfold State.wakeup
  split
  · split_ifs <;> trivial
  · exact ok

variable [DecidableEq P]

@[simp] theorem setCall_self (s : State P D) (p : P) (c : Call) : (s.setCall p c).call p = c := Function.update_self ..

theorem setCall_ne (c : Call) (ne : q ≠ p) : (s.setCall p c).call q = s.call q := Function.update_of_ne ne ..

/-- The common case: only `call p` changes. -/
theorem Inv.setCall (inv : Inv s l) {c : Call} (ok : CallOk s l p c) : Inv (s.setCall p c) l := by
  refine inv.move (p := p) rfl rfl (fun q => setCall_ne c) (fun _ _ => id) ?_
  rw [setCall_self]
  exact ok.keep id (fun _ => rfl) (fun _ _ => rfl) (fun _ _ => id) rfl fun _ _ => rfl

/-! ## Buffers change hands -/

theorem obtains_call (s : State P D) (p : P) (dev sector : BitVec 32) (b : BufPtr) :
    (s.obtains p dev sector b).call p = .bread dev sector b := by
  simp [State.obtains, State.setCall]

/-- `bget` gives a buffer that nobody holds to process `p`, which has the lock. -/
theorem Inv.obtain (inv : Inv s l) {dev sector : BitVec 32} (mine : s.lock = some p) (f : Buf D → Buf D)
    (free : s.busy b = false) (block : (f (s.cache.buf b)).key = (dev, sector)) (busy : (f (s.cache.buf b)).flags.busy = true)
    (unique : ∀ b' ≠ b, (f (s.cache.buf b)).dev ≠ -1 → (f (s.cache.buf b)).key ≠ s.key b') :
    Inv ((s.modify b f).obtains p dev sector b) l := by
  have nobody (q : P) : b ∉ s.held q := by
    intro owned
    have taken := (inv.busy b).2 ⟨q, owned⟩
    rw [free] at taken
    cases taken
  have held_self : ((s.modify b f).obtains p dev sector b).held p = b :: s.held p := Function.update_self ..
  have held_ne {q : P} (ne : q ≠ p) : ((s.modify b f).obtains p dev sector b).held q = s.held q := Function.update_of_ne ne ..
  have mem_held (b' : BufPtr) (q : P) :
      b' ∈ ((s.modify b f).obtains p dev sector b).held q ↔ b' ∈ s.held q ∨ q = p ∧ b' = b := by
    rcases eq_or_ne q p with rfl | ne
    · rw [held_self, List.mem_cons]
      tauto
    · rw [held_ne ne]
      tauto
  have buf_self : ((s.modify b f).obtains p dev sector b).cache.buf b = f (s.cache.buf b) := Cache.modify_buf_self f
  have buf_ne {b' : BufPtr} (ne : b' ≠ b) : ((s.modify b f).obtains p dev sector b).cache.buf b' = s.cache.buf b' :=
    Cache.modify_buf_ne ne f
  refine ⟨inv.ring.of_links rfl rfl, inv.all, ?_, ?_, ?_, ?_, ?_⟩
  · intro b1 b2 named same
    unfold State.key at same
    rcases eq_or_ne b1 b with rfl | ne1 <;> rcases eq_or_ne b2 b1 with rfl | ne2
    · rfl
    · rw [buf_self] at named same
      rw [buf_ne ne2] at same
      exact absurd same (unique b2 ne2 named)
    · rfl
    · rw [buf_ne ne1] at named same
      rcases eq_or_ne b2 b with rfl | other
      · rw [buf_self] at same
        refine absurd same.symm (unique b1 ne1 ?_)
        have dev : (f (s.cache.buf b2)).dev = (s.cache.buf b1).dev := congrArg Prod.fst same.symm
        rwa [dev]
      · rw [buf_ne other] at same
        exact inv.unique b1 b2 named same
  · intro b'
    rcases eq_or_ne b' b with rfl | ne
    · refine iff_of_true ?_ ⟨p, (mem_held b' p).2 (.inr ⟨rfl, rfl⟩)⟩
      rw [State.busy, buf_self]
      exact busy
    · rw [State.busy, buf_ne ne]
      refine (inv.busy b').trans (exists_congr fun q => ?_)
      rw [mem_held]
      tauto
  · intro q1 q2 b' first second
    rw [mem_held] at first second
    rcases first with old1 | ⟨rfl, rfl⟩ <;> rcases second with old2 | ⟨rfl, same⟩
    · exact inv.one q1 q2 b' old1 old2
    · subst same
      exact absurd old1 (nobody q1)
    · exact absurd old2 (nobody q2)
    · rfl
  · intro q
    rcases eq_or_ne q p with rfl | ne
    · rw [held_self]
      exact List.nodup_cons.2 ⟨nobody q, inv.nodup q⟩
    · rw [held_ne ne]
      exact inv.nodup q
  · intro q
    rcases eq_or_ne q p with rfl | ne
    · rw [obtains_call]
      refine ⟨(mem_held b q).2 (.inr ⟨rfl, rfl⟩), ?_⟩
      rw [State.key, buf_self]
      exact block
    · have same : ((s.modify b f).obtains p dev sector b).call q = s.call q := Function.update_of_ne ne ..
      rw [same]
      have notMine : s.lock ≠ some q := by
        rw [mine]
        exact fun h => ne (Option.some.inj h).symm
      refine (inv.calls q).keep (fun h => absurd h notMine) (fun _ => rfl) (fun h => absurd h notMine)
        (fun h => absurd h notMine) (held_ne ne) ?_
      intro b' owned
      have other : b' ≠ b := fun same => nobody q (same ▸ owned)
      rw [State.key, buf_ne other]
      rfl

theorem brelse_buf (s : State P D) (p : P) (b b' : BufPtr) : (s.brelse p b).cache.buf b' =
    if b' = b then { s.cache.buf b with flags := { (s.cache.buf b).flags with busy := false } } else s.cache.buf b' := by
  simp [State.brelse, Cache.modify_buf]

theorem brelse_buf_ne {b' : BufPtr} (ne : b' ≠ b) : (s.brelse p b).cache.buf b' = s.cache.buf b' := by
  rw [brelse_buf, if_neg ne]

/-- `brelse`, when nobody holds the lock. -/
theorem Inv.release (inv : Inv s l) (free : s.lock = none) (owned : b ∈ s.held p) :
    Inv (s.brelse p b) (b :: l.erase b) := by
  have held_self : (s.brelse p b).held p = (s.held p).erase b := Function.update_self ..
  have held_ne {q : P} (ne : q ≠ p) : (s.brelse p b).held q = s.held q := Function.update_of_ne ne ..
  have mem_held (b' : BufPtr) (q : P) : b' ∈ (s.brelse p b).held q ↔ b' ∈ s.held q ∧ b' ≠ b := by
    rcases eq_or_ne q p with rfl | ne
    · rw [held_self, (inv.nodup q).mem_erase_iff]
      tauto
    · rw [held_ne ne]
      refine ⟨fun member => ⟨member, ?_⟩, And.left⟩
      rintro rfl
      exact ne (inv.one q p b' member owned)
  have keys (b' : BufPtr) : (s.brelse p b).key b' = s.key b' := by
    unfold State.key State.brelse
    rw [Cache.modify_data _ Buf.key rfl]
    rfl
  refine ⟨(inv.ring.toFront (inv.all b)).of_links rfl rfl, ?_, ?_, ?_, ?_, ?_, ?_⟩
  · intro b'
    rcases eq_or_ne b' b with rfl | ne
    · exact List.mem_cons_self
    · exact List.mem_cons_of_mem _ ((inv.ring.nodup.mem_erase_iff).2 ⟨ne, inv.all b'⟩)
  · intro b1 b2 named same
    rw [keys, keys] at same
    refine inv.unique b1 b2 ?_ same
    have dev : ((s.brelse p b).cache.buf b1).dev = (s.cache.buf b1).dev := congrArg Prod.fst (keys b1)
    rwa [dev] at named
  · intro b'
    rcases eq_or_ne b' b with rfl | ne
    · refine iff_of_false ?_ ?_
      · simp [State.busy, State.brelse]
      · rintro ⟨q, member⟩
        exact ((mem_held b' q).1 member).2 rfl
    · have same : (s.brelse p b).busy b' = s.busy b' := by
        simp [State.busy, State.brelse, Cache.modify_buf_ne ne]
      rw [same]
      refine (inv.busy b').trans (exists_congr fun q => ?_)
      rw [mem_held]
      exact (and_iff_left ne).symm
  · intro q1 q2 b' first second
    exact inv.one q1 q2 b' ((mem_held b' q1).1 first).1 ((mem_held b' q2).1 second).1
  · intro q
    rcases eq_or_ne q p with rfl | ne
    · rw [held_self]
      exact (inv.nodup q).erase b
    · rw [held_ne ne]
      exact inv.nodup q
  · intro q
    rcases eq_or_ne q p with rfl | ne
    · have idle : (s.brelse q b).call q = .idle := by simp [State.brelse]
      rw [idle]
      trivial
    · have woken : (s.brelse p b).call q = State.wakeup b (s.call q) := by simp [State.brelse, ne]
      have none_ : s.lock ≠ some q := by
        rw [free]
        nofun
      rw [woken]
      exact (wakeup_ok (inv.calls q)).keep (fun h => absurd h none_) (fun h => absurd h none_)
        (fun h => absurd h none_) (fun h => absurd h none_) (held_ne ne) fun b' _ => keys b'

/-! ## Every step -/

/-- One iteration of the first loop. -/
theorem scan_inv (inv : Inv s l) {dev sector : BitVec 32} {cur : Ptr} (at_ : s.call p = .scan dev sector cur) :
    Inv (s.scan p dev sector cur) l := by
  have ok := inv.calls p
  rw [at_] at ok
  obtain ⟨mine, before, after, split, here, passed⟩ := ok
  cases after with
  | nil =>
    subst here
    refine inv.setCall ⟨mine, ?_, [], l.reverse, rfl, ?_, by simp⟩
    · intro b
      exact passed b (by simpa [split] using inv.all b)
    · rw [inv.ring.last_eq, List.head?_reverse]
  | cons b after =>
    subst here
    unfold State.scan
    dsimp only [List.head?_cons]
    split_ifs with hit busy
    · exact inv.move (p := p) rfl rfl (fun q ne => Function.update_of_ne ne ..)
        (fun q ne held => absurd (mine.symm.trans held) fun h => ne (Option.some.inj h).symm)
        (by simp [State.setCall, CallOk])
    · refine inv.obtain mine _ (by simpa [State.busy] using busy) (Prod.ext hit.1 hit.2) rfl ?_
      intro b' ne named same
      exact ne (inv.unique b b' named same).symm
    · refine inv.setCall ⟨mine, before ++ [b], after, by simp [split], ?_, ?_⟩
      · exact inv.ring.next_split split
      · intro b' member
        rcases List.mem_append.1 member with old | new
        · exact passed b' old
        · rw [List.mem_singleton.1 new]
          exact fun same => hit (Prod.mk.inj same)

/-- One iteration of the second loop. -/
theorem recycle_inv (inv : Inv s l) {dev sector : BitVec 32} {cur : Ptr} (at_ : s.call p = .recycle dev sector cur) :
    Inv (s.recycle p dev sector cur) l := by
  have ok := inv.calls p
  rw [at_] at ok
  obtain ⟨mine, fresh, before, after, split, here, passed⟩ := ok
  cases after with
  | nil =>
    subst here
    exact inv.setCall trivial
  | cons b after =>
    subst here
    unfold State.recycle
    dsimp only [List.head?_cons]
    split_ifs with clean
    · refine inv.obtain mine _ (by simpa [State.busy] using clean.1) rfl rfl ?_
      intro b' ne named same
      exact fresh b' same.symm
    · refine inv.setCall ⟨mine, fresh, before ++ [b], after, by simp [split], ?_, ?_⟩
      · exact inv.ring.prev_split split
      · intro b' member
        rcases List.mem_append.1 member with old | new
        · exact passed b' old
        · rw [List.mem_singleton.1 new]
          unfold State.Taken State.busy State.dirty
          by_contra none_
          simp only [not_or, Bool.not_eq_true] at none_
          exact clean (by simp [none_])

/-- `iderw` writes to the buffer's data and to `B_VALID` and `B_DIRTY` only. -/
theorem iderw_buf {r r' : Buf D} {disk disk' : BitVec 32 → D} (done : iderw disksize r disk = .ok (r', disk')) :
    r'.key = r.key ∧ r'.flags.busy = r.flags.busy := by
  unfold iderw at done
  split_ifs at done <;> cases done <;> exact ⟨rfl, rfl⟩

theorem iderw_inv (inv : Inv s l) (owned : b ∈ s.held p) : Inv (s.iderw disksize p b) l := by
  unfold State.iderw
  split
  · rename_i r disk done
    obtain ⟨key, busy⟩ := iderw_buf done
    have touched : Inv (s.modify b fun _ => r) l := inv.touch owned _ key busy
    have idle : Inv ((s.modify b fun _ => r).setCall p .idle) l := touched.setCall trivial
    exact idle.move (p := p) rfl rfl (fun _ _ => rfl) (fun _ _ => id) (by simp [State.setCall, CallOk])
  · exact inv.setCall trivial

/-- **A step keeps the invariant**, perhaps with another order of the buffers. -/
theorem step_inv (inv : Inv s l) (taken : step disksize s e = some s') : ∃ l', Inv s' l' := by
  cases e with
  | bread p dev sector =>
    simp only [step] at taken
    split_ifs at taken
    cases taken
    exact ⟨l, inv.setCall trivial⟩
  | advance p =>
    have ok := inv.calls p
    simp only [step] at taken
    split at taken
    · rename_i dev sector at_
      split_ifs at taken with free
      cases taken
      refine ⟨l, inv.move (p := p) rfl rfl (fun q ne => Function.update_of_ne ne ..) ?_ ?_⟩
      · intro q _ held
        cases free.symm.trans held
      · simp only [State.setCall, Function.update_self]
        exact ⟨rfl, [], l, rfl, inv.ring.first_eq, by simp⟩
    · rename_i dev sector cur at_
      cases taken
      exact ⟨l, scan_inv inv at_⟩
    · rename_i dev sector cur at_
      cases taken
      exact ⟨l, recycle_inv inv at_⟩
    · rename_i dev sector b at_
      rw [at_] at ok
      split_ifs at taken
      · cases taken
        exact ⟨l, inv.setCall trivial⟩
      · cases taken
        exact ⟨l, iderw_inv inv ok.1⟩
    · rename_i b at_
      rw [at_] at ok
      cases taken
      exact ⟨l, iderw_inv inv ok⟩
    · rename_i b at_
      rw [at_] at ok
      split_ifs at taken with free
      cases taken
      exact ⟨_, inv.release free ok⟩
    · cases taken
    · cases taken
    · cases taken
  | kill p =>
    simp only [step] at taken
    split at taken
    · cases taken
      exact ⟨l, inv.setCall trivial⟩
    · cases taken
  | store p b data =>
    simp only [step] at taken
    split_ifs at taken with may
    cases taken
    exact ⟨l, inv.touch may.2 _ rfl rfl⟩
  | pin p b =>
    simp only [step] at taken
    split_ifs at taken with may
    cases taken
    exact ⟨l, inv.touch may.2 _ rfl rfl⟩
  | bwrite p b =>
    simp only [step] at taken
    split_ifs at taken with may busy
    · cases taken
      exact ⟨l, (inv.touch may.2 _ rfl rfl).setCall may.2⟩
    · cases taken
      exact ⟨l, inv.setCall trivial⟩
  | brelse p b =>
    simp only [step] at taken
    split_ifs at taken with may busy
    · cases taken
      exact ⟨l, inv.setCall may.2⟩
    · cases taken
      exact ⟨l, inv.setCall trivial⟩

omit [DecidableEq P] in
theorem init_inv (zero : D) (disk : BitVec 32 → D) :
    Inv (init zero disk : State P D) (List.finRange NBUF).reverse where
  ring := binit_ring zero
  all b := by simp
  unique b b' named := absurd (by rw [init, binit_buf]) named
  busy b := by
    refine iff_of_false ?_ ?_
    · rw [State.busy, init, binit_buf]
      nofun
    · rintro ⟨p, member⟩
      cases member
  one _ _ _ member := by cases member
  nodup _ := List.nodup_nil
  calls _ := trivial

theorem run_inv {tr : List (State P D × Event P D)} {zero : D} {disk : BitVec 32 → D}
    (run : Run (step disksize) (init zero disk) tr s) : ∃ l, Inv s l :=
  run.invariant_all (fun s => ∃ l, Inv s l) ⟨_, init_inv zero disk⟩ fun _ _ _ ⟨_, inv⟩ taken => step_inv inv taken

/-! ## What a step can do -/

/-- Where a process goes from a call without touching a buffer. -/
inductive Goes (s : State P D) (e : Event P D) : Call → Call → Prop
  | call {dev sector : BitVec 32} : Goes s e .idle (.bget dev sector)
  | acquire {dev sector : BitVec 32} {cur : Ptr} : Goes s e (.bget dev sector) (.scan dev sector cur)
  | next {dev sector : BitVec 32} {b : BufPtr} {cur : Ptr} : Goes s e (.scan dev sector b) (.scan dev sector cur)
  | sleep {dev sector : BitVec 32} {b : BufPtr} : Goes s e (.scan dev sector b) (.asleep dev sector b)
  | wake {dev sector : BitVec 32} {b : BufPtr} : Goes s e (.asleep dev sector b) (.bget dev sector)
  | miss {dev sector : BitVec 32} {cur : Ptr} (inside : e = .advance e.proc) :
    Goes s e (.scan dev sector none) (.recycle dev sector cur)
  | back {dev sector : BitVec 32} {b : BufPtr} {cur : Ptr} : Goes s e (.recycle dev sector b) (.recycle dev sector cur)
  | out {dev sector : BitVec 32} : Goes s e (.recycle dev sector none) (.panic .noBuffers)
  | cached {dev sector : BitVec 32} {b : BufPtr} (valid : s.valid b = true) : Goes s e (.bread dev sector b) .idle
  | release {b : BufPtr} (asked : e = .brelse e.proc b) : Goes s e .idle (.brelse b)
  | fails {c : Call} {why : Panic} (other : why ≠ .noBuffers) : Goes s e c (.panic why)

/-- What the steps come down to: the process moves on, writes to a buffer in its hands, obtains or releases one. -/
inductive Shape (s : State P D) (e : Event P D) : State P D → Prop
  | move {c c' : Call} (lock : Option P) (at_ : s.call e.proc = c) (goes : Goes s e c c') :
    Shape s e { s.setCall e.proc c' with lock := lock }
  | touch (b : BufPtr) (f : Buf D → Buf D) (call : P → Call) (disk : BitVec 32 → D)
    (others : ∀ q ≠ e.proc, call q = s.call q) (owned : b ∈ s.held e.proc)
    (own : call e.proc = .idle ∨ call e.proc = .bwrite b ∧ e = .bwrite e.proc b)
    (key : (f (s.cache.buf b)).key = (s.cache.buf b).key)
    (dirty : (f (s.cache.buf b)).flags.dirty = true → s.dirty b = true ∧ s.call e.proc = .idle ∨
      e = .pin e.proc b ∨ e = .bwrite e.proc b ∧ call e.proc = .bwrite b)
    (at_ : s.call e.proc = .idle ∧ (f (s.cache.buf b)).flags.valid = (s.cache.buf b).flags.valid ∨
      (s.call e.proc = .bwrite b ∨ ∃ dev sector, s.call e.proc = .bread dev sector b) ∧ (s.cache.buf b).dev = 1) :
    Shape s e { s.modify b f with call := call, disk := disk }
  | obtain (b : BufPtr) (f : Buf D → Buf D) (dev sector : BitVec 32) (free : s.busy b = false)
    (searching : ∃ cur, s.call e.proc = .scan dev sector cur ∨ s.call e.proc = .recycle dev sector cur)
    (flags : (f (s.cache.buf b)).key = s.key b ∧ (f (s.cache.buf b)).flags.dirty = s.dirty b ∧
        (f (s.cache.buf b)).flags.valid = s.valid b ∨
      s.dirty b = false ∧ (f (s.cache.buf b)).flags.dirty = false ∧ (f (s.cache.buf b)).flags.valid = false) :
    Shape s e ((s.modify b f).obtains e.proc dev sector b)
  | release (b : BufPtr) (at_ : s.call e.proc = .brelse b) (free : s.lock = none) : Shape s e (s.brelse e.proc b)

/-- `iderw` clears `B_DIRTY` and sets `B_VALID`, on the disk only. -/
theorem iderw_ok {r r' : Buf D} {disk disk' : BitVec 32 → D} (done : iderw disksize r disk = .ok (r', disk')) :
    r'.flags.dirty = false ∧ r.dev = 1 := by
  unfold iderw at done
  split_ifs at done <;> cases done <;> simp_all

theorem iderw_shape (inv : Inv s l) (at_ : s.call p = .bwrite b ∨ ∃ dev sector, s.call p = .bread dev sector b) :
    Shape s (.advance p) (s.iderw disksize p b) := by
  have owned : b ∈ s.held p := by
    have ok := inv.calls p
    rcases at_ with at_ | ⟨_, _, at_⟩ <;> rw [at_] at ok
    · exact ok
    · exact ok.1
  unfold State.iderw
  split
  · rename_i r disk done
    obtain ⟨clean, device⟩ := iderw_ok done
    exact .touch b (fun _ => r) _ disk (fun q ne => Function.update_of_ne ne ..) owned (.inl (setCall_self ..))
      (iderw_buf done).1 (by simp [clean]) (.inr ⟨at_, device⟩)
  · rename_i why failed
    refine .move s.lock rfl (.fails ?_)
    rintro rfl
    unfold iderw at failed
    split_ifs at failed <;> cases failed

/-- The ways in which a step changes the cache. -/
theorem step_shape (inv : Inv s l) (taken : step disksize s e = some s') : Shape s e s' := by
  cases e with
  | bread p dev sector =>
    simp only [step] at taken
    split_ifs at taken with idle
    cases taken
    exact .move s.lock idle .call
  | advance p =>
    simp only [step] at taken
    split at taken
    · rename_i at_
      split_ifs at taken
      cases taken
      exact .move (some p) at_ .acquire
    · rename_i dev sector cur at_
      cases taken
      unfold State.scan
      split
      · exact .move s.lock at_ (.miss rfl)
      · split_ifs with hit busy
        · exact .move none at_ .sleep
        · exact .obtain _ _ dev sector (by simpa [State.busy] using busy) ⟨_, .inl at_⟩ (.inl ⟨rfl, rfl, rfl⟩)
        · exact .move s.lock at_ .next
    · rename_i dev sector cur at_
      cases taken
      unfold State.recycle
      split
      · exact .move s.lock at_ .out
      · split_ifs with clean
        · exact .obtain _ _ dev sector (by simpa [State.busy] using clean.1) ⟨_, .inr at_⟩
            (.inr ⟨by simpa [State.dirty] using clean.2, rfl, rfl⟩)
        · exact .move s.lock at_ .back
    · rename_i dev sector b at_
      split_ifs at taken with valid
      · cases taken
        exact .move s.lock at_ (.cached (by simpa [State.valid] using valid))
      · cases taken
        exact iderw_shape inv (.inr ⟨dev, sector, at_⟩)
    · rename_i at_
      cases taken
      exact iderw_shape inv (.inl at_)
    · rename_i b at_
      split_ifs at taken with free
      cases taken
      exact .release b at_ free
    · cases taken
    · cases taken
    · cases taken
  | kill p =>
    simp only [step] at taken
    split at taken
    · rename_i at_
      cases taken
      exact .move s.lock at_ .wake
    · cases taken
  | store p b data =>
    simp only [step] at taken
    split_ifs at taken with may
    cases taken
    exact .touch (e := .store p b data) b (fun r => { r with data := data }) s.call s.disk (fun _ _ => rfl) may.2
      (.inl may.1) rfl (fun h => .inl ⟨h, may.1⟩) (.inl ⟨may.1, rfl⟩)
  | pin p b =>
    simp only [step] at taken
    split_ifs at taken with may
    cases taken
    exact .touch (e := .pin p b) b (fun r => { r with flags := { r.flags with dirty := true } }) s.call s.disk
      (fun _ _ => rfl) may.2 (.inl may.1) rfl (fun _ => .inr (.inl rfl)) (.inl ⟨may.1, rfl⟩)
  | bwrite p b =>
    simp only [step] at taken
    split_ifs at taken with may
    · cases taken
      exact .touch b _ _ s.disk (fun q ne => setCall_ne _ ne) may.2 (.inr ⟨setCall_self .., rfl⟩) rfl
        (fun _ => .inr (.inr ⟨rfl, setCall_self ..⟩)) (.inl ⟨may.1, rfl⟩)
    · cases taken
      exact .move s.lock may.1 (.fails (by simp))
  | brelse p b =>
    simp only [step] at taken
    split_ifs at taken with may
    · cases taken
      exact .move s.lock may.1 (.release rfl)
    · cases taken
      exact .move s.lock may.1 (.fails (by simp))

/-- A buffer that is busy or dirty keeps its block in every step. -/
theorem step_key (inv : Inv s l) (taken : step disksize s e = some s') (b : BufPtr) (kept : s.Taken b) : s'.key b = s.key b := by
  cases step_shape inv taken with
  | move => rfl
  | touch b' f _ _ _ _ _ key => exact Cache.modify_data f Buf.key key b
  | obtain b' f dev sector free _ flags =>
    show ((s.cache.modify b' f).buf b).key = s.key b
    rw [Cache.modify_buf]
    split_ifs with same
    · subst same
      rcases flags with ⟨key, _⟩ | ⟨clean, _⟩
      · exact key
      · exact absurd kept (by simp [State.Taken, free, clean])
    · rfl
  | release b' =>
    unfold State.key State.brelse
    rw [Cache.modify_data _ Buf.key rfl]
    rfl

/-- On a list of all buffers `prev` is the inverse of `next`. -/
theorem Cache.Ring.inverse {c : Cache D} (ring : c.Ring l) (all : ∀ b, b ∈ l) (x y : Ptr) : c.next x = y ↔ c.prev y = x := by
  cases x with
  | none =>
    cases y with
    | none => exact ring.first_none_iff
    | some b => exact (ring.prev_none_iff (all b)).symm
  | some a =>
    cases y with
    | none => exact ring.next_none_iff (all a)
    | some b => exact ring.prev_iff.symm

/-- **The buffer cache.** Along every run, whenever `bcache.lock` is free: the links form a circular list through
`head` that contains every buffer once, no two buffers hold the same block of a device, and the busy buffers are
those that exactly one process has obtained and not released. No step gives another block to a buffer that is
busy or dirty. -/
theorem bcache_invariant {zero : D} {disk : BitVec 32 → D} {tr : List (State P D × Event P D)}
    (run : Run (step disksize) (init zero disk) tr s) :
    (∀ t ∈ visited tr s, t.lock = none →
      (∃ l, t.cache.Ring l ∧ l.Nodup ∧ (∀ b, b ∈ l) ∧ ∀ x y, t.cache.next x = y ↔ t.cache.prev y = x) ∧
      (∀ b b', (t.cache.buf b).dev ≠ -1 → (t.cache.buf b).dev = (t.cache.buf b').dev →
        (t.cache.buf b).sector = (t.cache.buf b').sector → b = b') ∧
      (∀ b, (t.cache.buf b).flags.busy = true ↔ ∃! p, b ∈ t.held p) ∧ ∀ p, (t.held p).Nodup) ∧
    ∀ t e t', (t, e) ∈ tr → step disksize t e = some t' → ∀ b,
      (t.cache.buf b).flags.busy = true ∨ (t.cache.buf b).flags.dirty = true →
        (t'.cache.buf b).dev = (t.cache.buf b).dev ∧ (t'.cache.buf b).sector = (t.cache.buf b).sector := by
  refine ⟨?_, ?_⟩
  · intro t member _
    obtain ⟨_, _, _, reached⟩ := run.prefix_of_visited member
    obtain ⟨l, inv⟩ := run_inv reached
    refine ⟨⟨l, inv.ring, inv.ring.nodup, inv.all, inv.ring.inverse inv.all⟩, ?_, ?_, inv.nodup⟩
    · intro b b' named dev sector
      exact inv.unique b b' named (Prod.ext dev sector)
    · intro b
      refine (inv.busy b).trans ⟨?_, ExistsUnique.exists⟩
      rintro ⟨p, owned⟩
      exact ⟨p, owned, fun q owned' => inv.one q p b owned' owned⟩
  · intro t e t' member taken b kept
    obtain ⟨_, _, _, reached⟩ := run.prefix_of_visited (List.mem_append_left [s] (List.mem_map_of_mem member))
    obtain ⟨l, inv⟩ := run_inv reached
    exact Prod.mk.inj (step_key inv taken b kept)

/-- Process 0 gets the uncached block 7 into the last buffer of the list; process 1 finds it busy and sleeps. -/
def sharedBlock : List (Event (Fin 2) Unit) :=
  .bread 0 1 7 :: List.replicate 34 (.advance 0) ++ .bread 1 1 7 :: List.replicate 31 (.advance 1)

/-- One process holds the buffer for which the other one sleeps. -/
theorem bcache_invariant_sharedBlock : ∃ (tr : List (State (Fin 2) Unit × Event (Fin 2) Unit)) (s : State (Fin 2) Unit),
    Run (step 1024) (init () fun _ => ()) tr s ∧ s.lock = none ∧ s.call 1 = .asleep 1 7 0 ∧ ∃! p, 0 ∈ s.held p := by
  have final : (exec (step 1024) (init () fun _ => ()) sharedBlock).map
      (fun s => (s.lock, s.call 1, (s.cache.buf 0).flags.busy)) = some (none, .asleep 1 7 0, true) := by decide +kernel
  obtain ⟨s, done, seen⟩ := Option.map_eq_some_iff.1 final
  obtain ⟨free, asleep, busy⟩ : s.lock = none ∧ s.call 1 = .asleep 1 7 0 ∧ (s.cache.buf 0).flags.busy = true := by
    simpa using seen
  have run := run_of_exec done
  obtain ⟨_, _, owners, _⟩ := (bcache_invariant run).1 s (by simp [visited]) free
  exact ⟨_, s, run, free, asleep, (owners 0).1 busy⟩

end Xv6.Bio
