import Mathlib
import RegAlloc.Allocation.Routine
import RegAlloc.Proofs.Spill.Code

/-!
# The order in which registers are spilled

The registers that a round spills are a set, and nothing says in which order they get their slots.
In a store whose slots depend on the registers only, the order makes no difference. The code is
rewritten in the order in which it stands, so the fresh registers are the same, and with them the
next round.
-/

namespace RegAlloc

/-! ## Computations that agree -/

/-- Both computations fail with the same fault, or have results that are related. -/
inductive Agree {α β : Type} (R : α → β → Prop) : Except Fault α → Except Fault β → Prop
  | error (e : Fault) : Agree R (.error e) (.error e)
  | ok {a : α} {b : β} (h : R a b) : Agree R (.ok a) (.ok b)

namespace Agree

variable {α β γ δ : Type} {R R' : α → β → Prop} {S : γ → δ → Prop}

theorem mono {x : Except Fault α} {y : Except Fault β} (h : Agree R x y)
    (hR : ∀ a b, R a b → R' a b) : Agree R' x y := by
  cases h with
  | error e => exact .error e
  | ok h => exact .ok (hR _ _ h)

theorem bind {x : Except Fault α} {y : Except Fault β} {f : α → Except Fault γ}
    {g : β → Except Fault δ} (h : Agree R x y) (hf : ∀ a b, R a b → Agree S (f a) (g b)) :
    Agree S (x >>= f) (y >>= g) := by
  cases h with
  | error e => exact .error e
  | ok h => exact hf _ _ h

theorem of_eq {x y : Except Fault α} (h : x = y) : Agree (· = ·) x y := by
  subst h
  cases x with
  | error e => exact .error e
  | ok a => exact .ok rfl

end Agree

/-! ## Lists in another order -/

section Lists

variable {α : Type} [DecidableEq α] {as as' bs bs' : List α}

theorem perm_addNew (h : as.Perm as') (a : α) : (addNew as a).Perm (addNew as' a) := by
  unfold addNew
  simp only [h.mem_iff]
  split
  · exact h
  · exact h.append_right [a]

theorem addNew_of_mem {a : α} (h : a ∈ as) : addNew as a = as :=
  if_pos h

theorem perm_addNew_addNew (as : List α) (a b : α) :
    (addNew (addNew as a) b).Perm (addNew (addNew as b) a) := by
  by_cases ha : a ∈ as
  · rw [addNew_of_mem ha, addNew_of_mem (mem_addNew.2 (.inl ha))]
  · by_cases hb : b ∈ as
    · rw [addNew_of_mem hb, addNew_of_mem (mem_addNew.2 (.inl hb))]
    · by_cases hab : a = b
      · rw [hab]
      · simp only [addNew, ha, hb, hab, Ne.symm hab, ↓reduceIte, List.mem_append,
          List.mem_singleton, or_self, List.append_assoc, List.singleton_append]
        exact (List.Perm.swap b a []).append_left as

theorem perm_foldl_addNew_left (h : as.Perm as') (bs : List α) :
    (bs.foldl addNew as).Perm (bs.foldl addNew as') := by
  induction bs generalizing as as' with
  | nil => exact h
  | cons b bs ih => exact ih (perm_addNew h b)

/-- The order in which elements are added decides on the order of the list only. -/
theorem perm_foldl_addNew (h : as.Perm as') (hbs : bs.Perm bs') :
    (bs.foldl addNew as).Perm (bs'.foldl addNew as') := by
  induction hbs generalizing as as' with
  | nil => exact h
  | cons b _ ih => exact ih (perm_addNew h b)
  | swap b c bs =>
    exact perm_foldl_addNew_left
      ((perm_addNew_addNew as c b).trans (perm_addNew (perm_addNew h b) c)) bs
  | trans _ _ ih₁ ih₂ => exact (ih₁ h).trans (ih₂ (.refl _))

end Lists

theorem mergeSort_eq_of_perm {as bs : List Nat} (h : as.Perm bs) :
    as.mergeSort = bs.mergeSort := by
  have hperm : as.mergeSort.Perm bs.mergeSort :=
    (List.mergeSort_perm _ _).trans (h.trans (List.mergeSort_perm _ _).symm)
  exact hperm.eq_of_sortedLE List.sortedLE_mergeSort List.sortedLE_mergeSort

/-! ## Stores with fixed slots -/

namespace SlotStore

variable {σ τ : Type} [SlotStore σ]

/-- What has become of a store after some requests for slots, the last of which comes first. A
request is a register together with its size. -/
inductive Asked (store : σ) : List (Nat × Nat) → σ → Prop
  | start : Asked store [] store
  | next {requests : List (Nat × Nat)} {s s' : σ} {v size offset : Nat} (h : Asked store requests s)
    (halloc : alloc s v size = .ok (offset, s')) : Asked store ((v, size) :: requests) s'

/-- What has become of a store after the same requests, in any two orders. -/
def SameRequests (store s s' : σ) : Prop :=
  ∃ requests requests', Asked store requests s ∧ Asked store requests' s' ∧
    ∀ r, r ∈ requests ↔ r ∈ requests'

theorem SameRequests.refl (store : σ) : SameRequests store store store :=
  ⟨[], [], .start, .start, fun _ ↦ Iff.rfl⟩

/-- The slots of a store depend on the registers only. Every request is met, with an offset that is
known from the register, and what can be seen of the store afterwards depends on the set of the
requests. Its size can be seen. -/
structure HasFixedSlots (offset : Nat → Nat) (view : σ → τ) (store : σ) : Prop where
  exists_alloc : ∀ {requests s}, Asked store requests s → ∀ v size,
    ∃ s', alloc s v size = .ok (offset v, s')
  view_eq : ∀ {s s'}, SameRequests store s s' → view s = view s'
  size_eq : ∀ {s s'}, view s = view s' → SlotStore.size s = SlotStore.size s'

end SlotStore

namespace StridedSlots

/-- The slots that were asked for as a set. -/
def view (s : StridedSlots) : Nat × Nat × Finset (Nat × Slot) :=
  (s.base, s.stride, s.slots.toFinset)

theorem size_eq_sup (s : StridedSlots) :
    SlotStore.size s = s.slots.toFinset.sup (·.2.offset) := by
  change (s.slots.map (·.2.offset)).foldl max 0 = _
  rw [List.foldl_eq_foldr]
  induction s.slots with
  | nil => rfl
  | cons p slots ih =>
    rw [List.map_cons, List.foldr_cons, ih, List.toFinset_cons, Finset.sup_insert]

theorem offset_congr {s t : StridedSlots} (hbase : t.base = s.base)
    (hstride : t.stride = s.stride) : t.offset = s.offset := by
  funext v
  rw [offset, offset, hbase, hstride]

/-- Requests change nothing but the slots. -/
theorem of_asked {s t : StridedSlots} {requests : List (Nat × Nat)}
    (h : SlotStore.Asked s requests t) :
    t.base = s.base ∧ t.stride = s.stride ∧
      ∀ p, p ∈ t.slots ↔ p ∈ s.slots ∨ ∃ r ∈ requests, p = (r.1, ⟨s.offset r.1, r.2⟩) := by
  induction h with
  | start => simp
  | @next requests t t' v size o _ halloc ih =>
    obtain ⟨hbase, hstride, hslots⟩ := ih
    cases halloc
    refine ⟨hbase, hstride, fun p ↦ ?_⟩
    rw [mem_addNew, hslots, offset_congr hbase hstride, or_assoc, or_comm (b := p = _)]
    simp only [List.mem_cons, exists_eq_or_imp]

/-- The order in which the slots were asked for is all that requests leave open. -/
theorem hasFixedSlots (s : StridedSlots) : SlotStore.HasFixedSlots s.offset view s where
  exists_alloc := by
    intro requests t h v size
    obtain ⟨hbase, hstride, -⟩ := of_asked h
    rw [← offset_congr hbase hstride]
    exact ⟨_, rfl⟩
  view_eq := by
    rintro t t' ⟨requests, requests', h, h', hmem⟩
    obtain ⟨hbase, hstride, hslots⟩ := of_asked h
    obtain ⟨hbase', hstride', hslots'⟩ := of_asked h'
    have hset : t.slots.toFinset = t'.slots.toFinset := by
      ext p
      simp only [List.mem_toFinset, hslots, hslots', hmem]
    rw [view, view, hbase, hbase', hstride, hstride', hset]
  size_eq := by
    intro t t' h
    have hset : t.slots.toFinset = t'.slots.toFinset := congrArg (·.2.2) h
    rw [size_eq_sup, size_eq_sup, hset]

end StridedSlots

/-! ## Code depends on the slots that are found -/

section Code

variable {slots slots' : List (Nat × Slot)}

theorem spilledAmong_congr (h : ∀ v, slots.lookup v = slots'.lookup v) (regs : List Reg) :
    spilledAmong slots regs = spilledAmong slots' regs := by
  simp only [spilledAmong, h]

theorem spillInstr_congr (h : ∀ v, slots.lookup v = slots'.lookup v) :
    spillInstr slots = spillInstr slots' := by
  funext frameBase known i
  simp only [spillInstr, spilledAmong_congr h]

theorem spillBlock_congr (h : ∀ v, slots.lookup v = slots'.lookup v) :
    spillBlock slots = spillBlock slots' := by
  funext frameBase known b
  simp only [spillBlock, spillInstr_congr h]

end Code

namespace Spilling

variable {σ τ : Type}

/-- The routine and the owners are the same, and so are the sets of registers. -/
structure SameCode (w w' : Spilling σ) : Prop where
  routine : w.routine = w'.routine
  owners : w.record.owners = w'.record.owners
  retired : w.record.retired.Perm w'.record.retired
  spilled : w.record.spilled.Perm w'.record.spilled

theorem SameCode.refl (w : Spilling σ) : w.SameCode w :=
  ⟨rfl, rfl, .refl _, .refl _⟩

theorem SameCode.owner_eq {w w' : Spilling σ} (h : w.SameCode w') :
    w.record.owner = w'.record.owner := by
  funext v
  rw [SpillRecord.owner, SpillRecord.owner, h.owners]

/-- What a store is asked for when a register is spilled: the register of the input that it stands
for, and the size of that one. -/
def request (w : Spilling σ) (v : Nat) : Nat × Nat :=
  (w.record.owner v, w.routine.vregSize (w.record.owner v))

theorem SameCode.request_eq {w w' : Spilling σ} (h : w.SameCode w') : w.request = w'.request := by
  funext v
  rw [request, request, h.owner_eq, h.routine]

/-- The slots of registers, if offsets are known. -/
def slotsAt (w : Spilling σ) (offset : Nat → Nat) (spills : List Nat) : List (Nat × Slot) :=
  spills.map fun v ↦ (v, ⟨offset (w.request v).1, (w.request v).2⟩)

theorem lookup_slotsAt (w : Spilling σ) (offset : Nat → Nat) (spills : List Nat) (v : Nat) :
    (w.slotsAt offset spills).lookup v =
      if v ∈ spills then some ⟨offset (w.request v).1, (w.request v).2⟩ else none := by
  induction spills with
  | nil => rfl
  | cons u spills ih =>
    rw [slotsAt, List.map_cons, List.lookup_cons]
    by_cases h : v = u
    · simp [h]
    · rw [beq_eq_false_iff_ne.2 h]
      exact ih.trans (by simp [h])

variable [SlotStore σ] {offset : Nat → Nat} {view : σ → τ} {store : σ} {w w' : Spilling σ}
  {catalog : Catalog} {spills spills' : List Nat}

/-- Slots at known offsets are found, whatever was asked for before. -/
theorem exists_assignSlots_eq (h : SlotStore.HasFixedSlots offset view store)
    {requests : List (Nat × Nat)} (hw : SlotStore.Asked store requests w.store)
    (spills : List Nat) :
    ∃ s, w.assignSlots spills = .ok (w.slotsAt offset spills, s) ∧
      SlotStore.Asked store ((spills.map w.request).reverse ++ requests) s := by
  induction spills using List.reverseRecOn with
  | nil => exact ⟨w.store, rfl, hw⟩
  | append_singleton spills v ih =>
    obtain ⟨s, hslots, hs⟩ := ih
    obtain ⟨s', halloc⟩ := h.exists_alloc hs (w.request v).1 (w.request v).2
    refine ⟨s', ?_, ?_⟩
    · rw [slotsAt, List.map_append]
      exact mapAccumM_concat hslots (bind_eq_ok_iff.2 ⟨_, halloc, rfl⟩)
    · rw [List.map_append, List.reverse_append]
      exact hs.next halloc

/-- States of the same code find the same slots, in whatever order they ask. -/
theorem assignSlots_agree (h : SlotStore.HasFixedSlots offset view store) (hw : w.SameCode w')
    (hstore : SlotStore.SameRequests store w.store w'.store) (hspills : spills.Perm spills') :
    Agree (fun p p' ↦ (∀ v, p.1.lookup v = p'.1.lookup v) ∧ p.1.Perm p'.1 ∧
        SlotStore.SameRequests store p.2 p'.2)
      (w.assignSlots spills) (w'.assignSlots spills') := by
  obtain ⟨requests, requests', hs, hs', hmem⟩ := hstore
  obtain ⟨s, hslots, hs⟩ := exists_assignSlots_eq h hs spills
  obtain ⟨s', hslots', hs'⟩ := exists_assignSlots_eq h hs' spills'
  rw [hslots, hslots']
  refine .ok ⟨fun v ↦ ?_, ?_, _, _, hs, hs', fun r ↦ ?_⟩
  · rw [lookup_slotsAt, lookup_slotsAt, hw.request_eq]
    simp only [hspills.mem_iff]
  · rw [slotsAt, slotsAt, hw.request_eq]
    exact hspills.map _
  · rw [List.mem_append, List.mem_append, List.mem_reverse, List.mem_reverse, hmem,
      hw.request_eq, (hspills.map _).mem_iff]

/-- States of the same code are rewritten to states of the same code. -/
theorem spill_agree (h : SlotStore.HasFixedSlots offset view store) (hw : w.SameCode w')
    (hstore : SlotStore.SameRequests store w.store w'.store) (hspills : spills.Perm spills') :
    Agree (fun p p' ↦ p.1.SameCode p'.1 ∧ SlotStore.SameRequests store p.1.store p'.1.store ∧
        p.2.Perm p'.2)
      (w.spill catalog spills) (w'.spill catalog spills') := by
  refine (assignSlots_agree h hw hstore hspills).bind ?_
  rintro ⟨slots, s⟩ ⟨slots', s'⟩ ⟨hlookup, hslots, hs⟩
  have hblocks : mapAccumM (spillBlock slots (.phys catalog.frameBase))
      { sizes := w.routine.sizes, owners := w.record.owners } w.routine.blocks =
        mapAccumM (spillBlock slots' (.phys catalog.frameBase))
          { sizes := w'.routine.sizes, owners := w'.record.owners } w'.routine.blocks := by
    rw [spillBlock_congr hlookup, hw.routine, hw.owners]
  refine (Agree.of_eq hblocks).bind ?_
  rintro ⟨blocks, known⟩ _ rfl
  refine .ok ⟨⟨?_, rfl, ?_, ?_⟩, hs, hslots⟩
  · exact congrArg (fun f : Routine ↦ { f with blocks, sizes := known.sizes }) hw.routine
  · exact hspills.append hw.retired
  · exact perm_foldl_addNew hw.spilled (hw.owner_eq ▸ hspills.map _)

/-- What is committed is the same. -/
theorem SameCode.commit_eq (hw : w.SameCode w') (h : SlotStore.HasFixedSlots offset view store)
    (hstore : SlotStore.SameRequests store w.store w'.store) (number : Nat) {r : Nat}
    (round : Round r) : w.commit catalog number round = w'.commit catalog number round := by
  have hsize : SlotStore.size w.store = SlotStore.size w'.store := h.size_eq (h.view_eq hstore)
  rw [commit, commit, hw.routine, mergeSort_eq_of_perm hw.spilled, hsize]

end Spilling

/-! ## Whole runs -/

theorem Colouring.unretired_congr {n m : Nat} (g : Graph n (Fin m)) {retired retired' : List Nat}
    (h : ∀ v, v ∈ retired ↔ v ∈ retired') : unretired g retired = unretired g retired' := by
  simp only [unretired, h]

/-- A round does not see in which order registers were retired. -/
theorem Routine.round_congr (f : Routine) (catalog : Catalog) (g : BlockGraph f.blocks.length)
    (coalesce : Bool) {retired retired' : List Nat} (h : ∀ v, v ∈ retired ↔ v ∈ retired') :
    f.round catalog g coalesce retired = f.round catalog g coalesce retired' := by
  simp only [Routine.round, Colouring.attempt, Colouring.unretired_congr _ h]

/-- The rounds are the same, up to the order of the slots that were asked for. -/
def Attempt.SameRound (a a' : Attempt) : Prop :=
  ∃ slots, a.slots.Perm slots ∧ a' = { a with slots }

/-- The code and the answer are the same, and so are the rounds and what can be seen of the
stores. -/
structure Outcome.SameResult {σ τ : Type} (view : σ → τ) (o o' : Outcome σ) : Prop where
  routine : o.routine = o'.routine
  result : o.result = o'.result
  attempts : List.Forall₂ Attempt.SameRound o.attempts o'.attempts
  store : view o.store = view o'.store

section Run

variable {σ τ : Type} [SlotStore σ] {offset : Nat → Nat} {view : σ → τ} {store : σ}

/-- The rounds of two runs are the same, however each of them goes through the registers that are
spilled. -/
theorem Spilling.rounds_agree (h : SlotStore.HasFixedSlots offset view store)
    (order order' : SlotOrder) (settings : Settings) (catalog : Catalog) {w w' : Spilling σ}
    (hw : w.SameCode w') (hstore : SlotStore.SameRequests store w.store w'.store)
    (left number : Nat) {attempts attempts' : List Attempt}
    (hattempts : List.Forall₂ Attempt.SameRound attempts attempts') :
    Agree (Outcome.SameResult view)
      (rounds order settings catalog left number attempts w)
      (rounds order' settings catalog left number attempts' w') := by
  induction left generalizing number attempts attempts' w w' with
  | zero =>
    refine .ok ⟨hw.routine, ?_, hattempts, h.view_eq hstore⟩
    rw [hw.routine]
  | succ left ih =>
    obtain ⟨routine', store', record'⟩ := w'
    obtain rfl : w.routine = routine' := hw.routine
    rw [rounds, rounds]
    cases w.routine.blockGraph with
    | error e => exact .ok ⟨rfl, rfl, hattempts, h.view_eq hstore⟩
    | ok g =>
      have hround := w.routine.round_congr catalog g settings.coalesce fun v ↦ hw.retired.mem_iff
      refine (Agree.of_eq hround).bind ?_
      rintro round _ rfl
      have happend := List.rel_append hattempts
      by_cases hspills : round.spills.isEmpty = true
      · rw [if_pos hspills, if_pos hspills]
        refine (Agree.of_eq (hw.commit_eq h hstore number round)).bind ?_
        rintro ⟨routine, report⟩ _ rfl
        exact .ok ⟨rfl, rfl, happend (.cons ⟨_, .refl _, rfl⟩ .nil), h.view_eq hstore⟩
      · rw [if_neg hspills, if_neg hspills]
        have hperm := (order.perm number round.spills).trans (order'.perm number round.spills).symm
        refine (spill_agree h hw hstore hperm).bind ?_
        rintro ⟨next, slots⟩ ⟨next', slots'⟩ ⟨hnext, hs, hslots⟩
        refine ih hnext hs (number + 1) (happend (.cons ⟨_, ?_, rfl⟩ .nil))
        rw [hw.owner_eq]
        exact hslots.map _

/-- In a store with fixed slots it makes no difference in which order registers are spilled. Each
order leads to the same code with the same fresh registers, for the same owners, to the same sets of
retired and spilled registers and of slots, and to stores that look alike. So the whole allocation
has the same outcome, whichever orders its rounds go through their registers in. -/
theorem agree_of_hasFixedSlots (h : SlotStore.HasFixedSlots offset view store)
    (catalog : Catalog) :
    (∀ (w : Spilling σ) (spills spills' : List Nat), w.store = store → spills.Perm spills' →
      Agree (fun p p' ↦ p.1.SameCode p'.1 ∧ view p.1.store = view p'.1.store ∧ p.2.Perm p'.2)
        (w.spill catalog spills) (w.spill catalog spills')) ∧
    ∀ (f : Routine) (settings : Settings) (order order' : SlotOrder),
      Agree (Outcome.SameResult view) (f.allocate order store catalog settings)
        (f.allocate order' store catalog settings) := by
  constructor
  · rintro w spills spills' rfl hspills
    refine (Spilling.spill_agree h (.refl w) (.refl w.store) hspills).mono ?_
    rintro p p' ⟨hcode, hs, hslots⟩
    exact ⟨hcode, h.view_eq hs, hslots⟩
  · intro f settings order order'
    rw [Routine.allocate, Routine.allocate]
    split
    · exact .ok ⟨rfl, rfl, .nil, rfl⟩
    · exact Spilling.rounds_agree h order order' settings catalog (.refl _) (.refl store) _ _ .nil

end Run

/-- A routine with two registers, whose slots are near and far. -/
def Spilling.ofDouble : Spilling StridedSlots where
  routine := .double
  store := ⟨2040, 8, []⟩

/-- The order from the last register to the first. -/
def SlotOrder.descending : SlotOrder where
  arrange _ spills := spills.reverse
  perm _ spills := spills.reverse_perm

/-- Both registers are spilled, the one or the other first. The stores list the slots in different
orders, and look alike. -/
theorem agree_double :
    (∃ p p' : Spilling StridedSlots × List (Nat × Slot),
      Spilling.ofDouble.spill .twoColours [0, 1] = .ok p ∧
      Spilling.ofDouble.spill .twoColours [1, 0] = .ok p' ∧ p.1.store ≠ p'.1.store ∧
      p.1.SameCode p'.1 ∧ p.1.store.view = p'.1.store.view ∧ p.2.Perm p'.2) ∧
    Agree (Outcome.SameResult StridedSlots.view)
      (Routine.double.allocate .descending Spilling.ofDouble.store .twoColours {})
      (Routine.double.allocate .ascending Spilling.ofDouble.store .twoColours {}) := by
  obtain ⟨hspill, hallocate⟩ :=
    agree_of_hasFixedSlots (StridedSlots.hasFixedSlots Spilling.ofDouble.store) .twoColours
  refine ⟨?_, hallocate _ _ _ _⟩
  obtain ⟨p, hp, hstore⟩ : ∃ p, Spilling.ofDouble.spill .twoColours [0, 1] = .ok p ∧
      p.1.store.slots = [(0, ⟨2048, 4⟩), (1, ⟨2056, 4⟩)] := ⟨_, rfl, rfl⟩
  obtain ⟨p', hp', hstore'⟩ : ∃ p', Spilling.ofDouble.spill .twoColours [1, 0] = .ok p' ∧
      p'.1.store.slots = [(1, ⟨2056, 4⟩), (0, ⟨2048, 4⟩)] := ⟨_, rfl, rfl⟩
  have hagree := hspill .ofDouble [0, 1] [1, 0] rfl (.swap 1 0 [])
  rw [hp, hp'] at hagree
  cases hagree with
  | ok hagree =>
    refine ⟨p, p', hp, hp', fun heq ↦ ?_, hagree⟩
    rw [heq, hstore'] at hstore
    exact absurd hstore (by decide)

end RegAlloc
