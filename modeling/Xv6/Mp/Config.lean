import Mathlib

/-!
# The multiprocessor configuration table

`mpinit` of `mp.c` with the search for the table. The loop over the entries of the table goes on by the size of an entry
whose type it knows; at any other byte it stays where it is, for ever. Each processor entry takes the next
element of `cpus`, whether there is one or not. What a store outside of `cpus` overwrites is left out: it is
recorded in the trace.
-/

namespace Xv6.Mp

abbrev Byte := BitVec 8

abbrev Word := BitVec 32

/-- Memory at the addresses of the kernel. -/
abbrev Mem := Word → Byte

/-- Elements of `cpus`. -/
def NCPU : Nat := 8

def KERNBASE : Word := 0x80000000

def PHYSTOP : Word := 0xe000000

def p2v (a : Word) : Word := a + KERNBASE

/-- An `ushort` and an `uint` in memory. -/
def word16 (m : Mem) (a : Word) : BitVec 16 := m (a + 1) ++ m a

def word32 (m : Mem) (a : Word) : Word := m (a + 3) ++ m (a + 2) ++ m (a + 1) ++ m a

/-- The bytes at `a` are those of the string. -/
def memcmp (m : Mem) (a : Word) : List Byte → Bool
  | [] => true
  | c :: cs => m a == c && memcmp m (a + 1) cs

def sum (m : Mem) (addr : Word) : Nat → Byte
  | 0 => 0
  | len + 1 => m addr + sum m (addr + 1) len

/-! ## Finding the table -/

/-- `sizeof(struct mp)` and `sizeof(struct mpconf)`. -/
def MP : Nat := 16

def MPCONF : Word := 44

/-- The loop of `mpsearch1`, of at most `rounds` steps. -/
def searchLoop (m : Mem) (e : Word) : Nat → Word → Option Word
  | 0, _ => none
  | rounds + 1, p =>
    if p < e then
      if memcmp m p [0x5f, 0x4d, 0x50, 0x5f] && sum m p MP == 0 then some p
      else searchLoop m e rounds (p + BitVec.ofNat 32 MP)
    else none

def mpsearch1 (m : Mem) (a : Word) (len : Nat) : Option Word :=
  searchLoop m (p2v a + BitVec.ofNat 32 len) (len / MP) (p2v a)

def mpsearch (m : Mem) : Option Word :=
  let bda := p2v 0x400
  let p : Word := (m (bda + 0x0f) ++ m (bda + 0x0e)).setWidth 32 <<< 4
  let found :=
    if p ≠ 0 then mpsearch1 m p 1024
    else mpsearch1 m ((m (bda + 0x14) ++ m (bda + 0x13)).setWidth 32 * 1024 - 1024) 1024
  found.or (mpsearch1 m 0xf0000 0x10000)

/-- `conf->length`. -/
def tableLength (m : Mem) (conf : Word) : Nat := (word16 m (conf + 4)).toNat

/-- `mpconfig`: the addresses of the floating pointer and of the table. -/
def mpconfig (m : Mem) : Option (Word × Word) := do
  let mp ← mpsearch m
  if word32 m (mp + 4) = 0 then none
  else
    let conf := p2v (word32 m (mp + 4))
    if ¬ memcmp m conf [0x50, 0x43, 0x4d, 0x50] then none
    else if m (conf + 6) ≠ 1 ∧ m (conf + 6) ≠ 4 then none
    else if sum m conf (tableLength m conf) ≠ 0 then none
    else some (mp, conf)

/-! ## Reading the table -/

def MPPROC : Byte := 0

def MPBUS : Byte := 1

def MPIOAPIC : Byte := 2

def MPIOINTR : Byte := 3

def MPLINTR : Byte := 4

/-- The variables that `mpinit` sets; `bcpu` is an index of `cpus`. -/
structure Globals where
  bcpu : Nat
  ismp : Bool
  ncpu : Nat
  ioapicid : Byte
  lapic : Word
  deriving DecidableEq, Repr

def Globals.initial : Globals := ⟨0, false, 0, 0, 0⟩

/-- What `mpinit` does besides: it looks at an entry, prints, stores `cpus[i].id` and masks interrupts. -/
inductive Event where
  | entry (p : Word)
  | printApicid (ncpu : Nat) (apicid : Byte)
  | printUnknown (type : Byte)
  | id (i : Nat)
  | outb (port : BitVec 16) (data : Byte)
  deriving DecidableEq, Repr

/-- The body of the loop: where it goes on, and with which variables. -/
def round (m : Mem) (p : Word) (g : Globals) : Word × Globals × List Event :=
  if m p = MPPROC then
    let agrees := g.ncpu = (m (p + 1)).toNat
    (p + 20,
      { g with
        ismp := if agrees then g.ismp else false
        bcpu := if m (p + 3) &&& 2 ≠ 0 then g.ncpu else g.bcpu
        ncpu := g.ncpu + 1 },
      .entry p :: (if agrees then [] else [.printApicid g.ncpu (m (p + 1))]) ++ [.id g.ncpu])
  else if m p = MPIOAPIC then (p + 8, { g with ioapicid := m (p + 1) }, [.entry p])
  else if m p = MPBUS ∨ m p = MPIOINTR ∨ m p = MPLINTR then (p + 8, g, [.entry p])
  else (p, { g with ismp := false }, [.entry p, .printUnknown (m p)])

/-- The loop of `mpinit`; `none` if it takes more than `n` rounds. -/
def mpLoop (m : Mem) (e : Word) : Nat → Word → Globals → Option (Globals × List Event)
  | 0, _, _ => none
  | n + 1, p, g =>
    if p < e then
      let r := round m p g
      (mpLoop m e n r.1 r.2.1).map fun q => (q.1, r.2.2 ++ q.2)
    else some (g, [])

/-- What `mpinit` does after the loop; `imcr` is what `inb(0x23)` reads. -/
def afterLoop (m : Mem) (mp : Word) (imcr : Byte) (g : Globals) (t : List Event) : Globals × List Event :=
  if g.ismp = false then ({ g with ncpu := 1, lapic := 0, ioapicid := 0 }, t)
  else if m (mp + 12) ≠ 0 then (g, t ++ [.outb 0x22 0x70, .outb 0x23 (imcr ||| 1)])
  else (g, t)

/-- The variables when the loop begins. -/
def Globals.start (m : Mem) (conf : Word) : Globals := { Globals.initial with ismp := true, lapic := word32 m (conf + 36) }

/-- The end of the table. -/
def tableEnd (m : Mem) (conf : Word) : Word := conf + BitVec.ofNat 32 (tableLength m conf)

/-- `mpinit`, if the loop takes at most `n` rounds. -/
def mpinit (n : Nat) (m : Mem) (imcr : Byte) : Option (Globals × List Event) :=
  match mpconfig m with
  | none => some (.initial, [])
  | some (mp, conf) =>
    (mpLoop m (tableEnd m conf) n (conf + MPCONF) (.start m conf)).map fun r => afterLoop m mp imcr r.1 r.2

/-! ## When all goes well -/

/-- From `p` on there are entries of known types up to `e`, `k` of them processors. -/
inductive Listed (m : Mem) (e : Word) : Word → Nat → Prop where
  | done {p : Word} (beyond : ¬ p < e) : Listed m e p 0
  | proc {p : Word} {k : Nat} (inside : p < e) (type : m p = MPPROC) (rest : Listed m e (p + 20) k) : Listed m e p (k + 1)
  | other {p : Word} {k : Nat} (inside : p < e) (type : m p ∈ [MPIOAPIC, MPBUS, MPIOINTR, MPLINTR])
      (rest : Listed m e (p + 8) k) : Listed m e p k

/-- The entries looked at are inside of the table, and `cpus` has room for all processors. -/
structure Orderly (conf e : Word) (g : Globals) (t : List Event) : Prop where
  inside : ∀ p, .entry p ∈ t → conf ≤ p ∧ p < e
  count : g.ncpu ≤ NCPU
  stores : ∀ i, .id i ∈ t → i < NCPU

/-- The elements of `cpus` that are stored to. -/
def ids (t : List Event) : List Nat := t.filterMap fun
  | .id i => some i
  | _ => none

/-- What the loop does with the entries from `p` on, `k` of them processors. -/
structure Run (m : Mem) (e p : Word) (g g' : Globals) (t : List Event) (k : Nat) : Prop where
  listed : Listed m e p k
  count : g'.ncpu = g.ncpu + k
  stores : ids t = List.range' g.ncpu k
  inside : ∀ q, .entry q ∈ t → p ≤ q ∧ q < e

section
variable {m : Mem} {e p conf mp : Word} {g g' : Globals} {t : List Event} {n k : Nat}

theorem mem_ids {i : Nat} : i ∈ ids t ↔ .id i ∈ t := by
  simp only [ids, List.mem_filterMap]
  constructor
  · rintro ⟨event, member, same⟩
    split at same
    · cases same
      exact member
    · cases same
  · exact fun member => ⟨_, member, rfl⟩

/-- The three ways in which a round goes. -/
theorem round_cases (m : Mem) (p : Word) (g : Globals) :
    (m p = MPPROC ∧ (round m p g).1 = p + 20 ∧ (round m p g).2.1.ncpu = g.ncpu + 1 ∧ ids (round m p g).2.2 = [g.ncpu]) ∨
    (m p ∈ [MPIOAPIC, MPBUS, MPIOINTR, MPLINTR] ∧ (round m p g).1 = p + 8 ∧ (round m p g).2.1.ncpu = g.ncpu ∧
      ids (round m p g).2.2 = []) ∨
    (m p ∉ [MPPROC, MPIOAPIC, MPBUS, MPIOINTR, MPLINTR] ∧ (round m p g).1 = p) := by
  unfold round
  by_cases proc : m p = MPPROC
  · rw [if_pos proc]
    refine .inl ⟨proc, rfl, rfl, ?_⟩
    dsimp only
    split_ifs <;> rfl
  rw [if_neg proc]
  by_cases ioapic : m p = MPIOAPIC
  · rw [if_pos ioapic]
    exact .inr (.inl ⟨by simp [ioapic], rfl, rfl, rfl⟩)
  rw [if_neg ioapic]
  by_cases other : m p = MPBUS ∨ m p = MPIOINTR ∨ m p = MPLINTR
  · rw [if_pos other]
    exact .inr (.inl ⟨by simpa [ioapic] using other, rfl, rfl, rfl⟩)
  · rw [if_neg other]
    exact .inr (.inr ⟨by simpa [proc, ioapic] using other, rfl⟩)

theorem round_entries {q : Word} (member : .entry q ∈ (round m p g).2.2) : q = p := by
  unfold round at member
  split_ifs at member <;> simp at member <;> tauto

theorem mpLoop_step (inside : p < e) : mpLoop m e (n + 1) p g =
    (mpLoop m e n (round m p g).1 (round m p g).2.1).map fun q => (q.1, (round m p g).2.2 ++ q.2) := if_pos inside

/-- At an entry of an unknown type the loop never ends. -/
theorem mpLoop_unknown (inside : p < e) (unknown : m p ∉ [MPPROC, MPIOAPIC, MPBUS, MPIOINTR, MPLINTR]) :
    mpLoop m e n p g = none := by
  induction n generalizing g with
  | zero => rfl
  | succ n ih =>
    have stays : (round m p g).1 = p := by
      rcases round_cases m p g with ⟨type, -⟩ | ⟨type, -⟩ | ⟨-, stays⟩
      · exact absurd (by simp [type]) unknown
      · exact absurd (List.mem_cons_of_mem _ type) unknown
      · exact stays
    rw [mpLoop_step inside, stays, ih]
    rfl

/-- A loop that ends has gone through a list of entries. -/
theorem mpLoop_run (small : e.toNat + 20 < 2 ^ 32) (done : mpLoop m e n p g = some (g', t)) : ∃ k, Run m e p g g' t k := by
  induction n generalizing p g t with
  | zero => cases done
  | succ n ih =>
    by_cases inside : p < e
    · rw [mpLoop_step inside, Option.map_eq_some_iff] at done
      obtain ⟨⟨g1, t'⟩, rest, same⟩ := done
      obtain ⟨rfl, rfl⟩ := Prod.mk.inj same
      have before : ∀ size : Nat, size ≤ 20 → ∀ q, p + BitVec.ofNat 32 size ≤ q → p ≤ q := by
        intro size le q after
        rw [BitVec.lt_def] at inside
        rw [BitVec.le_def, BitVec.toNat_add, BitVec.toNat_ofNat] at after
        rw [BitVec.le_def]
        omega
      have entries : ∀ size : Nat, size ≤ 20 → (∀ q, .entry q ∈ t' → p + BitVec.ofNat 32 size ≤ q ∧ q < e) →
          ∀ q, .entry q ∈ (round m p g).2.2 ++ t' → p ≤ q ∧ q < e := by
        intro size le later q member
        rcases List.mem_append.1 member with here | there
        · rw [round_entries here]
          exact ⟨BitVec.le_refl p, inside⟩
        · exact ⟨before size le q (later q there).1, (later q there).2⟩
      rcases round_cases m p g with ⟨type, next, count, stores⟩ | ⟨type, next, count, stores⟩ | ⟨unknown, -⟩
      · rw [next] at rest
        obtain ⟨k, run⟩ := ih rest
        refine ⟨k + 1, .proc inside type run.listed, ?_, ?_, entries 20 le_rfl run.inside⟩
        · rw [run.count, count]
          omega
        · rw [ids, List.filterMap_append, ← ids, ← ids, stores, run.stores, count]
          rfl
      · rw [next] at rest
        obtain ⟨k, run⟩ := ih rest
        refine ⟨k, .other inside type run.listed, by rw [run.count, count], ?_, entries 8 (by omega) run.inside⟩
        rw [ids, List.filterMap_append, ← ids, ← ids, stores, run.stores, count]
        rfl
      · have stuck : mpLoop m e (n + 1) p g = none := mpLoop_unknown inside unknown
        rw [mpLoop_step inside, rest] at stuck
        cases stuck
    · rw [mpLoop, if_neg inside] at done
      obtain ⟨rfl, rfl⟩ := Prod.mk.inj (Option.some.inj done)
      exact ⟨0, .done inside, rfl, rfl, by simp⟩

/-- A list of entries is gone through. -/
theorem Listed.mpLoop (listed : Listed m e p k) (g : Globals) :
    ∃ n r, Mp.mpLoop m e n p g = some r ∧ r.1.ncpu = g.ncpu + k := by
  induction listed generalizing g with
  | done beyond => exact ⟨1, _, if_neg beyond, rfl⟩
  | @proc p k inside type _ ih =>
    obtain ⟨n, r, rest, total⟩ := ih (round m p g).2.1
    refine ⟨n + 1, (r.1, (round m p g).2.2 ++ r.2), ?_, ?_⟩
    · rw [mpLoop_step inside, show (round m p g).1 = p + 20 by rw [round, if_pos type], rest]
      rfl
    · rw [total, show (round m p g).2.1.ncpu = g.ncpu + 1 by rw [round, if_pos type]]
      omega
  | @other p k inside type _ ih =>
    obtain ⟨n, r, rest, total⟩ := ih (round m p g).2.1
    rcases round_cases m p g with ⟨proc, -⟩ | ⟨-, next, count, -⟩ | ⟨unknown, -⟩
    · rw [proc] at type
      exact absurd type (by decide)
    · refine ⟨n + 1, (r.1, (round m p g).2.2 ++ r.2), ?_, by rw [total, count]⟩
      rw [mpLoop_step inside, next, rest]
      rfl
    · exact absurd (List.mem_cons_of_mem _ type) unknown

theorem mpinit_found (found : mpconfig m = some (mp, conf)) (imcr : Byte) : mpinit n m imcr =
    (mpLoop m (tableEnd m conf) n (conf + MPCONF) (.start m conf)).map fun r => afterLoop m mp imcr r.1 r.2 := by
  rw [mpinit, found]

theorem afterLoop_cases (m : Mem) (mp : Word) (imcr : Byte) (g : Globals) (t : List Event) :
    ((afterLoop m mp imcr g t).1.ncpu = 1 ∨ (afterLoop m mp imcr g t).1.ncpu = g.ncpu) ∧
      (∀ p, .entry p ∈ (afterLoop m mp imcr g t).2 ↔ .entry p ∈ t) ∧ ∀ i, .id i ∈ (afterLoop m mp imcr g t).2 ↔ .id i ∈ t := by
  unfold afterLoop
  split_ifs <;> simp

/-- A table in memory below `PHYSTOP` ends well below the top of the address space. -/
theorem table_placed (found : mpconfig m = some (mp, conf))
    (placed : (word32 m (mp + 4)).toNat + max MPCONF.toNat (tableLength m conf) ≤ PHYSTOP.toNat) :
    (tableEnd m conf).toNat + 20 < 2 ^ 32 ∧ ∀ p, conf + MPCONF ≤ p → conf ≤ p := by
  have conf_eq : conf = p2v (word32 m (mp + 4)) := by
    rw [mpconfig, Option.bind_eq_bind, Option.bind_eq_some_iff] at found
    obtain ⟨mp', -, rest⟩ := found
    dsimp only at rest
    split_ifs at rest
    obtain ⟨rfl, rfl⟩ := Prod.mk.inj (Option.some.inj rest)
    rfl
  have base : KERNBASE.toNat = 0x80000000 := rfl
  have top : PHYSTOP.toNat = 0xe000000 := rfl
  have size : MPCONF.toNat = 44 := rfl
  have low : conf.toNat + max MPCONF.toNat (tableLength m conf) ≤ 0x8e000000 := by
    rw [conf_eq, p2v, BitVec.toNat_add, base, ← p2v, ← conf_eq]
    omega
  constructor
  · rw [tableEnd, BitVec.toNat_add, BitVec.toNat_ofNat]
    omega
  · intro p le
    rw [BitVec.le_def, BitVec.toNat_add] at le
    rw [BitVec.le_def]
    omega

end

/-- `mpinit` ends, looks only at entries inside of the table and keeps to `cpus` if and only if the table consists of entries
of known types, with at most `NCPU` processors. -/
theorem mpinit_orderly_iff (m : Mem) (imcr : Byte) (mp conf : Word) (found : mpconfig m = some (mp, conf))
    (placed : (word32 m (mp + 4)).toNat + max MPCONF.toNat (tableLength m conf) ≤ PHYSTOP.toNat) :
    (∃ n g t, mpinit n m imcr = some (g, t) ∧ Orderly conf (tableEnd m conf) g t) ↔
      ∃ k ≤ NCPU, Listed m (tableEnd m conf) (conf + MPCONF) k := by
  obtain ⟨small, after⟩ := table_placed found placed
  simp only [mpinit_found found]
  constructor
  · rintro ⟨n, g', t', init, orderly⟩
    obtain ⟨⟨g, t⟩, loop, same⟩ := Option.map_eq_some_iff.1 init
    obtain ⟨k, run⟩ := mpLoop_run small loop
    refine ⟨k, ?_, run.listed⟩
    by_contra many
    -- the store for the processor after the last element of `cpus`
    have stored : .id NCPU ∈ t := by
      rw [← mem_ids, run.stores, List.mem_range'_1]
      exact ⟨Nat.zero_le _, show NCPU < 0 + k by omega⟩
    have kept : .id NCPU ∈ t' := by
      have kept := ((afterLoop_cases m mp imcr g t).2.2 NCPU).2 stored
      rwa [same] at kept
    exact absurd (orderly.stores NCPU kept) (lt_irrefl _)
  · rintro ⟨k, few, listed⟩
    obtain ⟨n, ⟨g, t⟩, loop, total⟩ := listed.mpLoop (.start m conf)
    obtain ⟨k', run⟩ := mpLoop_run small loop
    obtain rfl : k = k' := Nat.add_left_cancel (total.symm.trans run.count)
    obtain ⟨count, entries, stores⟩ := afterLoop_cases m mp imcr g t
    have total : g.ncpu = k := run.count.trans (Nat.zero_add k)
    refine ⟨n, (afterLoop m mp imcr g t).1, (afterLoop m mp imcr g t).2, by rw [loop]; rfl,
      fun p member => ?_, ?_, fun i member => ?_⟩
    · obtain ⟨le, lt⟩ := run.inside p ((entries p).1 member)
      exact ⟨after p le, lt⟩
    · rcases count with one | same
      · rw [one]
        decide
      · rwa [same, total]
    · have member := (stores i).1 member
      rw [← mem_ids, run.stores, List.mem_range'_1] at member
      exact lt_of_lt_of_le member.2 (show 0 + k ≤ NCPU by omega)

/-- Memory with a floating pointer at `0x1000` that leads to the table at `0x2000`. -/
def booted (table : List Byte) : Mem := fun a =>
  if a = p2v 0x40f then 1
  else if p2v 0x1000 ≤ a ∧ a < p2v 0x1010 then
    [0x5f, 0x4d, 0x50, 0x5f, 0, 0x20, 0, 0, 1, 4, 0x80, 0, 0, 0, 0, 0].getD (a - p2v 0x1000).toNat 0
  else if p2v 0x2000 ≤ a then table.getD (a - p2v 0x2000).toNat 0
  else 0

/-- The header of a table, with its length and checksum. -/
def header (length : BitVec 16) (checksum : Byte) : List Byte :=
  [0x50, 0x43, 0x4d, 0x50, length.setWidth 8, (length >>> 8).setWidth 8, 4, checksum] ++ List.replicate 36 0

/-- The entries of `n` processors. -/
def processors (n : Nat) : List Byte := (List.range n).flatMap fun i => [0, BitVec.ofNat 8 i] ++ List.replicate 18 0

/-- A table with two processors and an I/O interrupt controller. -/
def twoProcessors : List Byte := header 92 0x68 ++ processors 2 ++ [2, 5, 0, 0, 0, 0, 0, 0]

/-- `mpinit` reads all three entries and nothing else. -/
theorem mpinit_orderly_two : mpconfig (booted twoProcessors) = some (p2v 0x1000, p2v 0x2000) ∧
    ∃ n g t, mpinit n (booted twoProcessors) 0 = some (g, t) ∧
      Orderly (p2v 0x2000) (tableEnd (booted twoProcessors) (p2v 0x2000)) g t := by
  have found : mpconfig (booted twoProcessors) = some (p2v 0x1000, p2v 0x2000) := by decide +kernel
  refine ⟨found, (mpinit_orderly_iff _ 0 _ _ found (by decide +kernel)).2 ⟨2, by decide, ?_⟩⟩
  have last : Listed (booted twoProcessors) (tableEnd (booted twoProcessors) (p2v 0x2000)) (p2v 0x2000 + MPCONF + 20 + 20) 0 :=
    .other (by decide +kernel) (by decide +kernel) (.done (by decide +kernel))
  exact .proc (by decide +kernel) (by decide +kernel) (.proc (by decide +kernel) (by decide +kernel) last)

/-- A table whose only entry has the type 5 keeps `mpinit` busy for ever; with nine processors it stores after the end of
`cpus`. -/
theorem mpinit_disorderly : (∀ n, mpinit n (booted (header 45 0x9a ++ [5])) 0 = none) ∧
    ∃ g t, mpinit 10 (booted (header 224 0xc8 ++ processors 9)) 0 = some (g, t) ∧ .id NCPU ∈ t ∧ NCPU < g.ncpu := by
  constructor
  · intro n
    have found : mpconfig (booted (header 45 0x9a ++ [5])) = some (p2v 0x1000, p2v 0x2000) := by decide +kernel
    rw [mpinit_found found, mpLoop_unknown (by decide +kernel) (by decide +kernel)]
    rfl
  · refine ⟨((mpinit 10 (booted (header 224 0xc8 ++ processors 9)) 0).getD (.initial, [])).1,
      ((mpinit 10 (booted (header 224 0xc8 ++ processors 9)) 0).getD (.initial, [])).2, ?_⟩
    decide +kernel

end Xv6.Mp
