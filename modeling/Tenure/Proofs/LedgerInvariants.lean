import Tenure.Proofs.Histories

/-!
# Invariants of ledgers

What memory says about an object and what the log of a history says about it agree:
a heap object is alive if the runtime has handed it out and has not taken it back, a
stack slot is alive if the frame that made it has not ended, a global is alive.  Each
part of this is an invariant of ledgers, and is proved from the few things that a
step can do to one.  So is the order of objects in memory.
-/

namespace Tenure.Interp

variable {slots : List Nat} {fs : List (List Nat)}

/-! ## What a log says -/

/-- The stack slots of the frame at a height, if it is active still. -/
def opened (height : Nat) : List Event → List Nat
  | [] => []
  | .slot id h :: log => if h = height then id :: opened height log else opened height log
  | .leave h :: log => if h = height then [] else opened height log
  | .malloc _ :: log | .free _ :: log => opened height log

def Event.created? : Event → Option Nat
  | .malloc id | .slot id _ => some id
  | .free _ | .leave _ => none

/-- The objects that were made, the latest first. -/
def created (log : List Event) : List Nat := log.filterMap Event.created?

/-! ## Lookups in memory -/

namespace Memory

variable {m : Memory} {id i : Nat} {region : Region} {size : Int64}

theorem getElem?_add : (m.add region size).objects[i]? =
    if i = m.objects.size then some { region, address := m.nextAddress, size }
    else m.objects[i]? := by
  simp only [add, Array.getElem?_push]

theorem getElem?_add_size :
    (m.add region size).objects[m.objects.size]? =
      some { region, address := m.nextAddress, size } := by
  rw [getElem?_add, if_pos rfl]

theorem getElem?_add_of_some {o : Object} (h : m.objects[i]? = some o) :
    (m.add region size).objects[i]? = some o := by
  have hlt : i < m.objects.size := (Array.getElem?_eq_some_iff.mp h).1
  rw [getElem?_add, if_neg (Nat.ne_of_lt hlt), h]

theorem getElem?_killAll {ids : List Nat} : (ids.foldl kill m).objects[i]? =
    m.objects[i]?.map fun o => if i ∈ ids then { o with dead := true } else o := by
  induction ids generalizing m with
  | nil => simp
  | cons id ids ih =>
    rw [List.foldl_cons, ih, getElem?_kill]
    by_cases h : id = i
    · subst h
      rw [if_pos rfl, Option.map_map]
      congr 1
      funext o
      by_cases hmem : id ∈ ids <;> simp [hmem]
    · rw [if_neg h]
      congr 1
      funext o
      by_cases hmem : i ∈ ids <;> simp [hmem, Ne.symm h]

variable {Q : Object → Prop}

/-- What is said of some object at a place, once another one was added. -/
theorem exists_add :
    (∃ o, (m.add region size).objects[i]? = some o ∧ Q o) ↔
      (i = m.objects.size ∧ Q { region, address := m.nextAddress, size }) ∨
        ∃ o, m.objects[i]? = some o ∧ Q o := by
  by_cases h : i = m.objects.size
  · subst h
    simp [getElem?_add_size]
  · simp [getElem?_add, h]

/-- What is said of some object at a place, once one was ended. -/
theorem exists_release : (∃ o, (m.release id).objects[i]? = some o ∧ Q o) ↔
    ∃ o, m.objects[i]? = some o ∧ Q (if id = i then { o with dead := true } else o) := by
  rw [getElem?_release]
  split
  · simp
  · rfl

end Memory

/-! ## Stack slots -/

/-- The stack slots that are alive are those of the active frames, each of one
frame only. -/
structure Ledger.SlotsAgree (l : Ledger) : Prop where
  alive : ∀ id o, l.memory.objects[id]? = some o → o.region = .stack →
    (o.dead = false ↔ ∃ slots ∈ l.frames, id ∈ slots)
  stack : ∀ slots ∈ l.frames, ∀ id ∈ slots,
    ∃ o, l.memory.objects[id]? = some o ∧ o.region = .stack
  nodup : l.frames.flatten.Nodup

section

variable {log : List Event} {l l' : Ledger} {e : Option Event}
variable {m : Memory} {size : Int64}
variable {id : Nat} {ids : List Nat} {first : Int64} {region : Region}

theorem Ledger.SlotsAgree.lt (h : l.SlotsAgree) (hs : slots ∈ l.frames) (hid : id ∈ slots) :
    id < l.memory.objects.size := by
  obtain ⟨o, ho, -⟩ := h.stack slots hs id hid
  exact (Array.getElem?_eq_some_iff.mp ho).1

/-- A frame ends and takes its slots with it; the other frames have slots of their
own. -/
theorem Ledger.SlotsAgree.leave (h : Ledger.SlotsAgree ⟨m, slots :: fs⟩) :
    Ledger.SlotsAgree ⟨slots.foldl Memory.kill m, fs⟩ := by
  have hnodup := h.nodup
  rw [List.flatten_cons, List.nodup_append] at hnodup
  obtain ⟨-, hrest, hdisjoint⟩ := hnodup
  have hother {s : List Nat} (hs : s ∈ fs) {id : Nat} (hid : id ∈ s) : id ∉ slots := fun hmem =>
    hdisjoint id hmem id (List.mem_flatten.mpr ⟨s, hs, hid⟩) rfl
  refine ⟨fun id o ho hregion => ?_, fun s hs id hid => ?_, hrest⟩
  · rw [Memory.getElem?_killAll] at ho
    obtain ⟨o1, ho1, rfl⟩ := Option.map_eq_some_iff.mp ho
    by_cases hmem : id ∈ slots
    · rw [if_pos hmem]
      simp only [Bool.true_eq_false, false_iff, not_exists, not_and]
      exact fun s hs hid => hother hs hid hmem
    · rw [if_neg hmem] at hregion ⊢
      have halive := h.alive id o1 ho1 hregion
      simpa [hmem] using halive
  · obtain ⟨o, ho, hregion⟩ := h.stack s (List.mem_cons_of_mem _ hs) id hid
    refine ⟨o, ?_, hregion⟩
    rw [Memory.getElem?_killAll, ho, Option.map_some, if_neg (hother hs hid)]

/-- A new slot goes to the latest frame. -/
theorem Ledger.SlotsAgree.slot (h : Ledger.SlotsAgree ⟨m, slots :: fs⟩) :
    Ledger.SlotsAgree ⟨m.add .stack size, (m.objects.size :: slots) :: fs⟩ := by
  refine ⟨fun id o ho hregion => ?_, fun s hs id hid => ?_, ?_⟩
  · rw [Memory.getElem?_add] at ho
    by_cases hid : id = m.objects.size
    · rw [if_pos hid] at ho
      obtain rfl := Option.some.inj ho
      simp [hid]
    · rw [if_neg hid] at ho
      have halive := h.alive id o ho hregion
      simpa [hid] using halive
  · have hold {s : List Nat} (hs : s ∈ slots :: fs) (hid : id ∈ s) :
        ∃ o, (m.add .stack size).objects[id]? = some o ∧ o.region = .stack := by
      obtain ⟨o, ho, hregion⟩ := h.stack s hs id hid
      exact ⟨o, Memory.getElem?_add_of_some ho, hregion⟩
    rcases List.mem_cons.mp hs with rfl | hs
    · rcases List.mem_cons.mp hid with rfl | hid
      · exact ⟨_, Memory.getElem?_add_size, rfl⟩
      · exact hold (List.mem_cons_self ..) hid
    · exact hold (List.mem_cons_of_mem _ hs) hid
  · show (m.objects.size :: (slots :: fs).flatten).Nodup
    refine List.nodup_cons.mpr ⟨fun hmem => ?_, h.nodup⟩
    obtain ⟨s, hs, hid⟩ := List.mem_flatten.mp hmem
    exact Nat.lt_irrefl _ (h.lt hs hid)

theorem Ledger.SlotsAgree.step (h : l.SlotsAgree) (hs : l.Step e l') : l'.SlotsAgree := by
  cases hs with
  | quiet => exact h
  | enter m fs =>
    refine ⟨fun id o ho hregion => ?_, fun s hs id hid => ?_, h.nodup⟩
    · simpa using h.alive id o ho hregion
    · rcases List.mem_cons.mp hs with rfl | hs
      · cases hid
      · exact h.stack s hs id hid
  | leave m slots fs => exact h.leave
  | slot m slots fs size => exact h.slot
  | malloc m fs size =>
    refine ⟨fun id o ho hregion => ?_, fun s hs id hid => ?_, h.nodup⟩
    · rw [Memory.getElem?_add] at ho
      split at ho
      · obtain rfl := Option.some.inj ho
        cases hregion
      · exact h.alive id o ho hregion
    · obtain ⟨o, ho, hregion⟩ := h.stack s hs id hid
      exact ⟨o, Memory.getElem?_add_of_some ho, hregion⟩
  | free m fs id0 o0 ho0 hregion0 hdead0 =>
    -- the object is on the heap, so it is no slot
    refine ⟨fun id o ho hregion => ?_, fun s hs id hid => ?_, h.nodup⟩
    · rw [Memory.getElem?_release] at ho
      split at ho
      · next heq =>
        subst heq
        rw [ho0] at ho
        obtain rfl := Option.some.inj ho
        rw [hregion0] at hregion
        cases hregion
      · exact h.alive id o ho hregion
    · obtain ⟨o, ho, hregion⟩ := h.stack s hs id hid
      refine ⟨o, ?_, hregion⟩
      rw [Memory.getElem?_release, if_neg, ho]
      rintro rfl
      obtain rfl := Option.some.inj (ho0.symm.trans ho)
      rw [hregion0] at hregion
      cases hregion

/-! ## The heap and the globals -/

/-- The heap objects are those that were handed out, the dead ones among them those
that were taken back, and the others are listed as the live ones. -/
structure Ledger.HeapAgrees (log : List Event) (l : Ledger) : Prop where
  malloc : ∀ id, Event.malloc id ∈ log ↔
    ∃ o, l.memory.objects[id]? = some o ∧ o.region = .heap
  free : ∀ id, Event.free id ∈ log ↔
    ∃ o, l.memory.objects[id]? = some o ∧ o.region = .heap ∧ o.dead = true
  live : ∀ id, id ∈ l.memory.heap ↔ Event.malloc id ∈ log ∧ Event.free id ∉ log
  nodup : l.memory.heap.Nodup

/-- What ends with a frame is not on the heap. -/
theorem Ledger.SlotsAgree.exists_heap
    (h : Ledger.SlotsAgree ⟨m, slots :: fs⟩) (id : Nat) (P : Object → Prop) :
    (∃ o, (slots.foldl Memory.kill m).objects[id]? = some o ∧ o.region = .heap ∧ P o) ↔
      ∃ o, m.objects[id]? = some o ∧ o.region = .heap ∧ P o := by
  by_cases hmem : id ∈ slots
  · obtain ⟨o, ho, hregion⟩ := h.stack slots (List.mem_cons_self ..) id hmem
    simp [Memory.getElem?_killAll, ho, hmem, hregion]
  · rw [Memory.getElem?_killAll]
    simp [hmem]

theorem Memory.heap_killAll : (ids.foldl kill m).heap = m.heap := by
  induction ids generalizing m with
  | nil => rfl
  | cons id ids ih => exact ih

theorem Ledger.HeapAgrees.leave
    (h : Ledger.HeapAgrees log ⟨m, slots :: fs⟩) (hslots : Ledger.SlotsAgree ⟨m, slots :: fs⟩)
    {n : Nat} : Ledger.HeapAgrees (.leave n :: log) ⟨slots.foldl Memory.kill m, fs⟩ := by
  refine ⟨fun id => ?_, fun id => ?_, fun id => ?_, ?_⟩
  · have hm := h.malloc id
    have hk := hslots.exists_heap id fun _ => True
    simp only [and_true] at hk
    simpa [hk] using hm
  · have hf := h.free id
    rw [← hslots.exists_heap id fun o => o.dead = true] at hf
    simpa using hf
  · rw [Memory.heap_killAll]
    simpa using h.live id
  · rw [Memory.heap_killAll]
    exact h.nodup

theorem Ledger.HeapAgrees.step (h : l.HeapAgrees log) (hslots : l.SlotsAgree)
    (hs : l.Step e l') : l'.HeapAgrees (e.toList ++ log) := by
  cases hs with
  | quiet => exact h
  | enter m fs => exact ⟨h.malloc, h.free, h.live, h.nodup⟩
  | leave m slots fs => exact h.leave hslots
  | slot m slots fs size =>
    refine ⟨fun id => ?_, fun id => ?_, fun id => ?_, h.nodup⟩
    · rw [Memory.exists_add]
      simpa using h.malloc id
    · rw [Memory.exists_add]
      simpa using h.free id
    · simpa [Memory.add] using h.live id
  | malloc m fs size =>
    -- the new object has a place of its own
    have hfree : Event.free m.objects.size ∉ log := fun hmem => by
      obtain ⟨o, ho, -⟩ := (h.free _).mp hmem
      simp at ho
    have hmalloc : Event.malloc m.objects.size ∉ log := fun hmem => by
      obtain ⟨o, ho, -⟩ := (h.malloc _).mp hmem
      simp at ho
    refine ⟨fun id => ?_, fun id => ?_, fun id => ?_, ?_⟩
    · rw [Memory.exists_add, ← h.malloc id]
      simp
    · rw [Memory.exists_add, ← h.free id]
      simp
    · have hlive := h.live id
      by_cases hid : id = m.objects.size
      · simp [Memory.add, hid, hfree]
      · simpa [Memory.add, hid] using hlive
    · exact List.nodup_cons.mpr ⟨fun hmem => hmalloc ((h.live _).mp hmem).1, h.nodup⟩
  | free m fs id0 o0 ho0 hregion0 hdead0 =>
    refine ⟨fun id => ?_, fun id => ?_, fun id => ?_, h.nodup.erase _⟩
    · have hm := h.malloc id
      rw [Memory.exists_release]
      by_cases hid : id0 = id <;> simpa [hid] using hm
    · have hf := h.free id
      rw [Memory.exists_release]
      by_cases hid : id0 = id
      · subst hid
        simp [ho0, hregion0]
      · simpa [hid, Ne.symm hid] using hf
    · have hlive := h.live id
      have herase : id ∈ m.heap.erase id0 ↔ id ≠ id0 ∧ id ∈ m.heap := h.nodup.mem_erase_iff
      change id ∈ m.heap.erase id0 ↔ _
      rw [herase, hlive]
      simp
      tauto

/-- Globals are alive. -/
def Ledger.GlobalsAlive (l : Ledger) : Prop :=
  ∀ (id : Nat) (o : Object), l.memory.objects[id]? = some o → o.region = .global → o.dead = false

theorem Ledger.GlobalsAlive.step (h : l.GlobalsAlive) (hslots : l.SlotsAgree)
    (hs : l.Step e l') : l'.GlobalsAlive := by
  intro id o ho hregion
  cases hs with
  | quiet | enter => exact h id o ho hregion
  | leave m slots fs =>
    rw [Memory.getElem?_killAll] at ho
    obtain ⟨o1, ho1, rfl⟩ := Option.map_eq_some_iff.mp ho
    by_cases hmem : id ∈ slots
    · obtain ⟨o2, ho2, hstack⟩ := hslots.stack slots (List.mem_cons_self ..) id hmem
      obtain rfl := Option.some.inj (ho1.symm.trans ho2)
      rw [if_pos hmem] at hregion
      rw [hstack] at hregion
      cases hregion
    · rw [if_neg hmem] at hregion ⊢
      exact h id o1 ho1 hregion
  | slot m slots fs size | malloc m fs size =>
    rw [Memory.getElem?_add] at ho
    split at ho
    · obtain rfl := Option.some.inj ho
      cases hregion
    · exact h id o ho hregion
  | free m fs id0 o0 ho0 hregion0 hdead0 =>
    rw [Memory.getElem?_release] at ho
    split at ho
    · next heq =>
      subst heq
      rw [ho0] at ho
      obtain rfl := Option.some.inj ho
      rw [hregion0] at hregion
      cases hregion
    · exact h id o ho hregion

/-! ## Frames by their heights -/

/-- The slots of every active frame are those that the log gives for its height. -/
structure Ledger.HeightsAgree (log : List Event) (l : Ledger) : Prop where
  opened : ∀ slots fs, slots :: fs <:+ l.frames → opened (fs.length + 1) log = slots
  above : ∀ height, height = 0 ∨ l.frames.length < height → Interp.opened height log = []

theorem Ledger.HeightsAgree.step (h : l.HeightsAgree log) (hs : l.Step e l') :
    l'.HeightsAgree (e.toList ++ log) := by
  cases hs with
  | quiet => exact h
  | malloc m fs size | free m fs id o => exact ⟨h.opened, h.above⟩
  | enter m fs =>
    refine ⟨fun slots gs hsuffix => ?_, fun height hh => h.above height ?_⟩
    · rcases List.suffix_cons_iff.mp hsuffix with heq | hsuffix
      · obtain ⟨rfl, rfl⟩ := List.cons.inj heq
        exact h.above _ (.inr (Nat.lt_succ_self _))
      · exact h.opened slots gs hsuffix
    · have hlength : (([] : List Nat) :: fs).length = fs.length + 1 := rfl
      dsimp only at hh ⊢
      omega
  | leave m slots0 fs =>
    refine ⟨fun slots gs hsuffix => ?_, fun height hh => ?_⟩
    · have hle := hsuffix.length_le
      have hne : fs.length ≠ gs.length := by
        simp only [List.length_cons] at hle
        omega
      have hold := h.opened slots gs (hsuffix.trans (List.suffix_cons _ _))
      simpa [Interp.opened, hne] using hold
    · by_cases heq : fs.length + 1 = height
      · simp [Interp.opened, heq]
      · have hold := h.above height (by simp only [List.length_cons] at hh ⊢; omega)
        simpa [Interp.opened, heq] using hold
  | slot m slots0 fs size =>
    refine ⟨fun slots gs hsuffix => ?_, fun height hh => ?_⟩
    · rcases List.suffix_cons_iff.mp hsuffix with heq | hsuffix
      · obtain ⟨rfl, rfl⟩ := List.cons.inj heq
        have hold := h.opened slots0 gs (List.suffix_refl _)
        simp [Interp.opened, hold]
      · have hle := hsuffix.length_le
        have hne : fs.length ≠ gs.length := by
          simp only [List.length_cons] at hle
          omega
        have hold := h.opened slots gs (hsuffix.trans (List.suffix_cons _ _))
        simpa [Interp.opened, hne] using hold
    · have hne : fs.length + 1 ≠ height := by
        simp only [List.length_cons] at hh
        omega
      have hold := h.above height hh
      simpa [Interp.opened, hne] using hold

/-! ## Objects are made once -/

structure Ledger.CreatedOnce (log : List Event) (l : Ledger) : Prop where
  lt : ∀ id ∈ created log, id < l.memory.objects.size
  nodup : (created log).Nodup

theorem Ledger.CreatedOnce.add {fs' : List (List Nat)} {e : Event}
    (h : Ledger.CreatedOnce log ⟨m, fs⟩) (he : e.created? = some m.objects.size) :
    Ledger.CreatedOnce (e :: log) ⟨m.add region size, fs'⟩ := by
  have hcreated : created (e :: log) = m.objects.size :: created log := by
    rw [created, List.filterMap_cons_some he, created]
  have hsize : (m.add region size).objects.size = m.objects.size + 1 := Array.size_push ..
  refine ⟨fun id hid => ?_, ?_⟩
  · rw [hcreated] at hid
    rw [hsize]
    rcases List.mem_cons.mp hid with rfl | hid
    · exact Nat.lt_succ_self _
    · exact Nat.lt_succ_of_lt (h.lt id hid)
  · rw [hcreated]
    exact List.nodup_cons.mpr ⟨fun hmem => Nat.lt_irrefl _ (h.lt _ hmem), h.nodup⟩

theorem Memory.size_killAll : (ids.foldl kill m).objects.size = m.objects.size := by
  induction ids generalizing m with
  | nil => rfl
  | cons id ids ih =>
    rw [List.foldl_cons, ih]
    simp [kill, modifyObject]

theorem Memory.size_release : (m.release id).objects.size = m.objects.size := by
  simp [release, kill, modifyObject]

theorem Ledger.CreatedOnce.step (h : l.CreatedOnce log) (hs : l.Step e l') :
    l'.CreatedOnce (e.toList ++ log) := by
  cases hs with
  | quiet => exact h
  | enter m fs => exact ⟨h.lt, h.nodup⟩
  | leave m slots fs =>
    refine ⟨fun id hid => ?_, h.nodup⟩
    rw [Memory.size_killAll]
    exact h.lt id hid
  | slot m slots fs size | malloc m fs size => exact h.add rfl
  | free m fs id =>
    refine ⟨fun id' hid => ?_, h.nodup⟩
    rw [Memory.size_release]
    exact h.lt id' hid

/-! ## Addresses -/

/-- The places of objects: where each begins, and its size. -/
def Memory.places (m : Memory) : List (Int64 × Int64) :=
  m.objects.toList.map fun o => (o.address, o.size)

/-- Places that follow each other from a first address to a last one, each with the
room that its size needs. -/
def Laid : Int64 → List (Int64 × Int64) → Int64 → Prop
  | first, [], last => first = last
  | first, (address, size) :: places, last => address = first ∧ Laid (first + room size) places last

theorem Laid.append {last : Int64} {places : List (Int64 × Int64)} (h : Laid first places last) :
    Laid first (places ++ [(last, size)]) (last + room size) := by
  induction places generalizing first with
  | nil =>
    obtain rfl : first = last := h
    exact ⟨rfl, rfl⟩
  | cons place places ih => exact ⟨h.1, ih h.2⟩

theorem Memory.places_kill : (m.kill id).places = m.places := by
  refine List.ext_getElem? fun i => ?_
  simp only [places, List.getElem?_map, Array.getElem?_toList, getElem?_kill]
  split
  · cases m.objects[i]? <;> rfl
  · rfl

theorem Memory.places_killAll :
    (ids.foldl kill m).places = m.places ∧ (ids.foldl kill m).nextAddress = m.nextAddress := by
  induction ids generalizing m with
  | nil => exact ⟨rfl, rfl⟩
  | cons id ids ih =>
    obtain ⟨hplaces, haddress⟩ := @ih (m.kill id)
    exact ⟨hplaces.trans places_kill, haddress⟩

theorem Memory.laid_add (h : Laid first m.places m.nextAddress) :
    Laid first (m.add region size).places (m.add region size).nextAddress := by
  have hplaces : (m.add region size).places = m.places ++ [(m.nextAddress, size)] := by
    simp [places, add]
  rw [hplaces]
  exact h.append

theorem Ledger.Step.laid (hs : l.Step e l') (h : Laid first l.memory.places l.memory.nextAddress) :
    Laid first l'.memory.places l'.memory.nextAddress := by
  cases hs with
  | quiet | enter => exact h
  | leave m slots fs =>
    rw [Memory.places_killAll.1, Memory.places_killAll.2]
    exact h
  | slot | malloc => exact Memory.laid_add h
  | free m fs id =>
    change Laid first (m.kill id).places _
    rw [Memory.places_kill]
    exact h

/-! ## What objects keep -/

/-- Objects stay where they are and what they are, and the dead stay dead. -/
def Memory.Continues (m m' : Memory) : Prop :=
  ∀ (id : Nat) (o : Object), m.objects[id]? = some o → ∃ o', m'.objects[id]? = some o' ∧
    o'.region = o.region ∧ o'.address = o.address ∧ o'.size = o.size ∧
      (o.dead = true → o'.dead = true)

theorem Memory.Continues.refl (m : Memory) : m.Continues m :=
  fun _ o ho => ⟨o, ho, rfl, rfl, rfl, fun h => h⟩

theorem Memory.Continues.trans {m' m'' : Memory} (h : m.Continues m') (h' : m'.Continues m'') :
    m.Continues m'' := by
  intro id o ho
  obtain ⟨o1, ho1, hregion1, haddress1, hsize1, hdead1⟩ := h id o ho
  obtain ⟨o2, ho2, hregion2, haddress2, hsize2, hdead2⟩ := h' id o1 ho1
  exact ⟨o2, ho2, hregion2.trans hregion1, haddress2.trans haddress1, hsize2.trans hsize1,
    fun hdead => hdead2 (hdead1 hdead)⟩

/-- A ledger that agrees with a log. -/
structure Ledger.Agrees (log : List Event) (l : Ledger) : Prop where
  slots : l.SlotsAgree
  heap : l.HeapAgrees log
  globals : l.GlobalsAlive
  heights : l.HeightsAgree log
  created : l.CreatedOnce log
  laid : Laid 0x1000 l.memory.places l.memory.nextAddress

theorem Ledger.Agrees.step (h : l.Agrees log) (hs : l.Step e l') : l'.Agrees (e.toList ++ log) where
  slots := h.slots.step hs
  heap := h.heap.step h.slots hs
  globals := h.globals.step h.slots hs
  heights := h.heights.step hs
  created := h.created.step hs
  laid := hs.laid h.laid

end

/-! ## New machines -/

variable {code : Code} {gs : List Ir.Global}

section

variable {Allowed : Native → Prop} {code : Code} {log : List Event} {w w' : Moment}
variable {log' : List Event}

end

end Tenure.Interp
