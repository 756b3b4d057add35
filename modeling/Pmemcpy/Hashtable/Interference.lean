import Pmemcpy.Hashtable.Clients

/-!
# Clients with ids of their own do not disturb each other

A step of one client is described once by what it does to the pool, and every
assertion that another client relies on is kept by each of these effects: the
block it has ready, the place of its walk, the entry it has found. The removal of
the entry that a walk stands on is the one step that no assertion survives.
-/

namespace Pmemcpy

open Lib PMDKHashtableStorage

namespace Pool

/-- No entry with the id lies in front of the one at `oid`, and at most `n` entries
lie behind it. -/
def Standing (hash : Bytes → ℕ) (p : Pool) (id : Bytes) (oid : PMEMoid) (n : ℕ) : Prop :=
  ∃ front x back, p.buckets (hash id % p.nbuckets) = front ++ x :: back ∧ x.oid = oid ∧
    (∀ y ∈ front, y.entry.isNamed id = false) ∧ back.length ≤ n

/-- The first entry with the id is the one at `oid`. -/
def Foremost (hash : Bytes → ℕ) (p : Pool) (id : Bytes) (oid : PMEMoid) : Prop :=
  ∃ x rest, p.named hash id = x :: rest ∧ x.oid = oid

section Places

variable {hash : Bytes → ℕ} {p : Pool} {freed : Set PMEMoid} {id id' : Bytes} {x y : ListElem}
  {oid : PMEMoid} {front back : List ListElem} {b : ℕ}

/-- The walk from an entry on meets this entry and those behind it in its bucket. -/
theorem Wf.entriesFrom_eq (h : p.Wf hash freed) (hb : p.buckets b = front ++ x :: back) :
    p.entriesFrom b x.oid = x :: back := by
  have hnodup := h.nodup b
  rw [hb, List.map_append, List.nodup_append] at hnodup
  have hfront : ∀ y ∈ front, decide (y.oid ≠ x.oid) = true := by
    intro y hy
    have hne := hnodup.2.2 y.oid (List.mem_map_of_mem hy) x.oid (by simp)
    simpa using hne
  rw [entriesFrom, hb, List.dropWhile_append_of_pos hfront]
  simp

/-- An entry with the id, reached by its walk, is the first one. -/
theorem foremost_of_standing (hb : p.buckets (hash id % p.nbuckets) = front ++ x :: back)
    (hfront : ∀ y ∈ front, y.entry.isNamed id = false) (hx : x.entry.isNamed id = true) :
    p.named hash id = x :: back.filter fun y => y.entry.isNamed id := by
  have hnil : front.filter (fun y => y.entry.isNamed id) = [] := by
    rw [List.filter_eq_nil_iff]
    intro y hy
    simp [hfront y hy]
  rw [named, hb, List.filter_append, hnil, List.nil_append]
  exact List.filter_cons_of_pos hx

/-- The first entry with an id lies in its bucket. -/
theorem exists_split_of_named {rest : List ListElem} (hx : p.named hash id = x :: rest) :
    x.entry.isNamed id = true ∧
      ∃ front back, p.buckets (hash id % p.nbuckets) = front ++ x :: back := by
  have hmem : x ∈ p.named hash id := by simp [hx]
  obtain ⟨hbucket, hnamed⟩ := List.mem_filter.mp hmem
  exact ⟨hnamed, List.append_of_mem hbucket⟩

/-- Entries that pass for different ids are different. -/
theorem Wf.oid_ne (h : p.Wf hash freed) (hx : x ∈ p.named hash id) (hy : y ∈ p.named hash id')
    (hid : NulFree id) (hne : id ≠ id') : x.oid ≠ y.oid := by
  obtain ⟨hxbucket, hxnamed⟩ := List.mem_filter.mp hx
  obtain ⟨hybucket, hynamed⟩ := List.mem_filter.mp hy
  intro heq
  obtain rfl := h.oid_inj hxbucket hybucket heq
  have hkey := ((h.entry hxbucket).isNamed_iff).mp hxnamed
  have hkey' := ((h.entry hxbucket).isNamed_iff).mp hynamed
  exact hne ((hkey.symm.trans hkey').eq hid)

/-- Leaving out an entry with one id leaves out no entry with another. -/
theorem Wf.filter_named (h : p.Wf hash freed) (hx : x ∈ p.named hash id) (hid : NulFree id)
    (hne : id ≠ id') :
    (p.named hash id').filter (fun y => y.oid ≠ x.oid) = p.named hash id' := by
  rw [List.filter_eq_self]
  intro y hy
  have hoid := h.oid_ne hx hy hid hne
  simpa using hoid.symm

/-- The first entries of different ids are different. -/
theorem Wf.foremost_ne (h : p.Wf hash freed) {o o' : PMEMoid} (ho : p.Foremost hash id o)
    (ho' : p.Foremost hash id' o') (hid : NulFree id) (hne : id ≠ id') : o ≠ o' := by
  obtain ⟨x, rest, hx, rfl⟩ := ho
  obtain ⟨y, rest', hy, rfl⟩ := ho'
  exact h.oid_ne (by simp [hx]) (by simp [hy]) hid hne

end Places

end Pool

/-! ### The effects of a step -/

/-- The cleared entries after a step of a client that was about to remove `before`
and then is about to remove `after`. -/
def freedAfter (freed : Set PMEMoid) (before after : Option PMEMoid) : Set PMEMoid :=
  {o | (o ∈ freed ∧ before ≠ some o) ∨ after = some o}

/-- A client that was not to remove an entry and is not clears none. -/
@[simp] theorem freedAfter_none (freed : Set PMEMoid) : freedAfter freed none none = freed := by
  ext o
  simp [freedAfter]

/-- A client that is to remove an entry now has cleared it. -/
@[simp] theorem freedAfter_some (freed : Set PMEMoid) (o : PMEMoid) :
    freedAfter freed none (some o) = insert o freed := by
  ext o'
  simp [freedAfter, or_comm, eq_comm]

/-- A client that has removed its entry leaves the other cleared ones. -/
@[simp] theorem freedAfter_removed (freed : Set PMEMoid) (o : PMEMoid) :
    freedAfter freed (some o) none = freed \ {o} := by
  ext o'
  simp [freedAfter, eq_comm]

/-- What a step of a call on `id` does to the pool. `pending` holds the blocks that
other clients have ready; `before` and `after` are as for `freedAfter`. -/
inductive Effect (hash : Bytes → ℕ) (id : Bytes) (pending : Set PMEMoid) (p : Pool)
    (freed : Set PMEMoid) : Pool → Option PMEMoid → Option PMEMoid → Prop
  | same : Effect hash id pending p freed p none none
  | allocated {src : Bytes} {a : Allocation} : p.Fresh src.length a →
      Effect hash id pending p freed (p.pobjAlloc (allocStr src) (some a)).2 none none
  | inserted {src : Bytes} {data : PMEMoid} {e : Allocation} :
      p.Insertable hash (hash id % p.nbuckets) ⟨id.length, id, src.length, data⟩ src →
      p.Fresh PMEMPointer.structSize e → e.oid ∉ freed → data ∉ pending →
      Effect hash id pending p freed
        (p.insertEntry (hash id % p.nbuckets) ⟨id.length, id, src.length, data⟩ e) none none
  | cleared {x : ListElem} {rest : List ListElem} : p.named hash id = x :: rest → x.oid ∉ freed →
      Effect hash id pending p freed (p.pobjFree (hash id % p.nbuckets) x) none (some x.oid)
  | removed {x : ListElem} {rest : List ListElem} : p.named hash id = x :: rest → x.oid ∈ freed →
      Effect hash id pending p freed (p.pobjListRemoveFree (hash id % p.nbuckets) x.oid)
        (some x.oid) none

namespace Effect

variable {hash : Bytes → ℕ} {id id' : Bytes} {pending freed owns : Set PMEMoid} {p q : Pool}
  {before after : Option PMEMoid} {oid : PMEMoid}

/-- No step changes the number of buckets. -/
theorem nbuckets (h : Effect hash id pending p freed q before after) : q.nbuckets = p.nbuckets := by
  cases h <;> rfl

/-- A step clears or removes the first entry of its id only. -/
theorem foremost (h : Effect hash id pending p freed q before after)
    (hoid : before = some oid ∨ after = some oid) : p.Foremost hash id oid := by
  cases h with
  | same => simp at hoid
  | allocated => simp at hoid
  | inserted => simp at hoid
  | cleared hx _ => exact ⟨_, _, hx, by simpa using hoid⟩
  | removed hx _ => exact ⟨_, _, hx, by simpa using hoid⟩

/-- Every step keeps the invariant of the table. -/
theorem wf (h : Effect hash id pending p freed q before after) (hwf : p.Wf hash freed) :
    q.Wf hash (freedAfter freed before after) := by
  cases h with
  | same => simpa using hwf
  | allocated ha => simpa using hwf.pobjAlloc _ ha
  | inserted hi he hnew _ => simpa using hwf.insertEntry hi he hnew
  | cleared hx hfreed =>
    obtain ⟨_, front, back, hb⟩ := Pool.exists_split_of_named hx
    simpa using hwf.pobjFree (by simp [hb]) hfreed
  | removed hx _ =>
    obtain ⟨_, front, back, hb⟩ := Pool.exists_split_of_named hx
    simpa using hwf.remove (by simp [hb])

/-- An inserted entry does not pass for another id. -/
theorem not_sameKey (hid : NulFree id) (hne : id ≠ id') {P : Prop} : ¬(P ∧ SameKey id id') :=
  fun h => hne (h.2.eq hid)

/-- The entries of another id are the same ones, cleared or not. -/
theorem named_other (h : Effect hash id pending p freed q before after) (hwf : p.Wf hash freed)
    (hid : NulFree id) (hne : id ≠ id') :
    (q.named hash id').map ListElem.oid = (p.named hash id').map ListElem.oid := by
  cases h with
  | same => rfl
  | allocated ha => rfl
  | inserted hi he _ _ => rw [Pool.named_insertEntry hi he, if_neg (not_sameKey hid hne)]
  | @cleared x rest hx _ =>
    obtain ⟨_, front, back, hb⟩ := Pool.exists_split_of_named hx
    have hoids : ListElem.oid ∘ Pool.clearElem x = ListElem.oid :=
      funext fun y => Pool.clearElem_oid x y
    rw [hwf.named_pobjFree (by simp [hb]), List.map_map, hoids]
  | @removed x rest hx _ =>
    obtain ⟨_, front, back, hb⟩ := Pool.exists_split_of_named hx
    rw [hwf.named_remove (by simp [hb]), hwf.filter_named (by simp [hx]) hid hne]

/-- The first entry of another id stays the first one. -/
theorem foremost_other (h : Effect hash id pending p freed q before after) (hwf : p.Wf hash freed)
    (hid : NulFree id) (hne : id ≠ id') (hfirst : p.Foremost hash id' oid) :
    q.Foremost hash id' oid := by
  obtain ⟨x, rest, hx, rfl⟩ := hfirst
  have hoids := h.named_other hwf hid hne
  rw [hx, List.map_cons] at hoids
  obtain ⟨y, rest', hy, hoid, _⟩ := List.map_eq_cons_iff.mp hoids
  exact ⟨y, rest', hy, hoid⟩

/-- A step leaves the stack of every other id. -/
theorem stack_other (h : Effect hash id pending p freed q before after) (hwf : p.Wf hash freed)
    (hid : NulFree id) (hne : id ≠ id') : q.stack hash id' = p.stack hash id' := by
  cases h with
  | same => rfl
  | allocated ha => exact hwf.stack_pobjAlloc _ ha id'
  | inserted hi he _ _ => rw [Pool.stack_insertEntry hi he, if_neg (not_sameKey hid hne)]
  | @cleared x rest hx hfreed =>
    obtain ⟨_, front, back, hb⟩ := Pool.exists_split_of_named hx
    rw [hwf.stack_pobjFree (by simp [hb]) hfreed, hwf.filter_named (by simp [hx]) hid hne,
      Pool.stack]
  | removed hx hfreed =>
    obtain ⟨_, front, back, hb⟩ := Pool.exists_split_of_named hx
    exact hwf.stack_remove (by simp [hb]) hfreed id'

/-- The walk for another id stands where it stood, unless its entry is removed. -/
theorem standing_other (h : Effect hash id pending p freed q before after) (hwf : p.Wf hash freed)
    (hid : NulFree id) (hne : id ≠ id') (hkept : before ≠ some oid)
    {n : ℕ} (hstand : p.Standing hash id' oid n) : q.Standing hash id' oid n := by
  obtain ⟨front, x, back, hb, rfl, hfront, hback⟩ := hstand
  cases h with
  | same => exact ⟨front, x, back, hb, rfl, hfront, hback⟩
  | allocated ha => exact ⟨front, x, back, hb, rfl, hfront, hback⟩
  | @inserted src data e hi he _ _ =>
    by_cases hbucket : hash id' % p.nbuckets = hash id % p.nbuckets
    · refine ⟨⟨e.oid, add ⟨id.length, id, src.length, data⟩ e.raw⟩ :: front, x, back, ?_, rfl, ?_,
        hback⟩
      · change (p.insertEntry _ _ e).buckets (hash id' % p.nbuckets) = _
        rw [Pool.buckets_insertEntry, if_pos hbucket, ← hbucket, hb, List.cons_append]
      · intro y hy
        rcases List.mem_cons.mp hy with rfl | hy
        · obtain ⟨hwfe, hide, _, _⟩ := hi.fields he
          rw [Bool.eq_false_iff]
          intro hnamed
          rw [hwfe.isNamed_iff, hide] at hnamed
          exact hne (hnamed.eq hid)
        · exact hfront y hy
    · refine ⟨front, x, back, ?_, rfl, hfront, hback⟩
      change (p.insertEntry _ _ e).buckets (hash id' % p.nbuckets) = _
      rw [Pool.buckets_insertEntry, if_neg hbucket, hb]
  | @cleared z rest hz _ =>
    obtain ⟨_, front', back', hb'⟩ := Pool.exists_split_of_named hz
    refine ⟨front.map (Pool.clearElem z), Pool.clearElem z x, back.map (Pool.clearElem z), ?_,
      Pool.clearElem_oid z x, ?_, by simpa using hback⟩
    · change (p.pobjFree _ z).buckets (hash id' % p.nbuckets) = _
      rw [hwf.buckets_pobjFree (by simp [hb']), hb, List.map_append, List.map_cons]
    · intro y hy
      obtain ⟨w, hw, rfl⟩ := List.mem_map.mp hy
      have hmem : w ∈ p.buckets (hash id' % p.nbuckets) := by simp [hb, hw]
      rw [hwf.clearElem_isNamed hmem]
      exact hfront w hw
  | @removed z rest hz _ =>
    obtain ⟨_, front', back', hb'⟩ := Pool.exists_split_of_named hz
    have hkeep : decide (x.oid ≠ z.oid) = true := by
      have hoid : x.oid ≠ z.oid := fun heq => hkept (congrArg some heq.symm)
      simpa using hoid
    refine ⟨front.filter (fun y => y.oid ≠ z.oid), x, back.filter fun y => y.oid ≠ z.oid, ?_, rfl,
      ?_, (List.length_filter_le _ _).trans hback⟩
    · change (p.pobjListRemoveFree _ z.oid).buckets (hash id' % p.nbuckets) = _
      rw [hwf.buckets_remove (by simp [hb']), hb, List.filter_append]
      congr 1
      exact List.filter_cons_of_pos hkeep
    · intro y hy
      exact hfront y (List.mem_filter.mp hy).1

/-- A block that another client has ready stays ready. -/
theorem insertable_other (h : Effect hash id pending p freed q before after)
    (hwf : p.Wf hash freed) {b : ℕ} {info : PMEMListArgs} {v : Bytes}
    (hi : p.Insertable hash b info v) (hpending : info.data ∈ pending) :
    q.Insertable hash b info v := by
  have hbucket := hi.bucket
  cases h with
  | same => exact hi
  | @allocated src a ha =>
    have hdata : info.data ≠ a.oid := by
      intro heq
      have hblock := hi.block
      rw [heq, ha.block] at hblock
      cases hblock
    exact { hi with block := (Function.update_of_ne hdata _ _).trans hi.block }
  | @inserted src data e hi' he _ hnot =>
    refine { hi with unreferenced := ?_ }
    intro b' y hy
    rcases Pool.mem_insertEntry.mp hy with ⟨_, rfl⟩ | hy
    · obtain ⟨_, _, _, hdata⟩ := hi'.fields he
      rw [hdata]
      rintro rfl
      exact hnot hpending
    · exact hi.unreferenced b' y hy
  | @cleared x rest hx _ =>
    obtain ⟨_, front, back, hb⟩ := Pool.exists_split_of_named hx
    have hmem : x ∈ p.buckets (hash id % p.nbuckets) := by simp [hb]
    have hdata := (hi.unreferenced _ _ hmem).symm
    refine { hi with block := (Function.update_of_ne hdata _ _).trans hi.block, unreferenced := ?_ }
    intro b' y hy
    rw [hwf.buckets_pobjFree hmem] at hy
    obtain ⟨w, hw, rfl⟩ := List.mem_map.mp hy
    rw [Pool.clearElem]
    split
    · rw [(hwf.entry hw).clearData.2.2.2]
      intro hnull
      have hblock := hi.block
      rw [← hnull, hwf.blocks_null] at hblock
      cases hblock
    · exact hi.unreferenced _ _ hw
  | @removed x rest hx _ =>
    obtain ⟨_, front, back, hb⟩ := Pool.exists_split_of_named hx
    refine { hi with unreferenced := ?_ }
    intro b' y hy
    rw [hwf.buckets_remove (by simp [hb])] at hy
    exact hi.unreferenced _ _ (List.mem_filter.mp hy).1

end Effect

/-! ### What a client relies on -/

/-- The steps of a lookup after its walk. -/
def Lookup.steps : Lookup → ℕ
  | find => 1
  | load => 1
  | free => 2

/-- What holds of the pool while a client with the ids `owns` is in a call that
returns after at most `n` more steps of its own. -/
def Pc.Ok (hash : Bytes → ℕ) (p : Pool) (freed : Set PMEMoid) (owns : Set Bytes) (n : ℕ) : Pc → Prop
  | idle => True
  | inserting id src data =>
    0 < n ∧ id ∈ owns ∧
      p.Insertable hash (hash id % p.nbuckets) ⟨id.length, id, src.length, data⟩ src
  | walking use id (.on oid) =>
    ∃ m, m + use.steps < n ∧ id ∈ owns ∧ p.Standing hash id oid m
  | walking _ _ .dangling => False
  | found use id oid => use.steps ≤ n ∧ id ∈ owns ∧ p.Foremost hash id oid ∧ oid ∉ freed
  | removing id oid => 0 < n ∧ id ∈ owns ∧ p.Foremost hash id oid ∧ oid ∈ freed

/-- The stacks of a client in the middle of a call: `POBJ_FREE` has popped already. -/
def Pc.view (τ : Stacks) : Pc → Stacks
  | removing id _ => τ.pop id
  | _ => τ

/-- The pool holds the stacks of a client, whose account so far is `τ`. -/
structure Pc.Sees (hash : Bytes → ℕ) (p : Pool) (owns : Set Bytes) (τ : Stacks) (pc : Pc) :
    Prop where
  stack : ∀ id ∈ owns, p.stack hash id = pc.view τ id
  popped : ∀ id oid, pc = .removing id oid → τ id ≠ []

/-- What a client finds when its turn comes. -/
structure Turn (hash : Bytes → ℕ) (owns : Set Bytes) (pending freed : Set PMEMoid)
    (s : PMDKHashtableStorage) (τ : Stacks) (n : ℕ) (pc : Pc) : Prop where
  pool : s.pool.Wf hash freed
  nbuckets : s.nbuckets = s.pool.nbuckets
  storable : ∀ id ∈ owns, StorableId id
  ok : pc.Ok hash s.pool freed owns n
  sees : pc.Sees hash s.pool owns τ
  /-- The blocks that others have ready are allocated. -/
  allocated : ∀ d ∈ pending, s.pool.blocks d ≠ none
  apart : ∀ d, pc.pending = some d → d ∉ pending
  /-- An entry that is about to be removed is the first one of a client that removes it. -/
  cleared : ∀ o ∈ freed, pc.removes = some o ∨ ∃ id, id ∉ owns ∧ s.pool.Foremost hash id o

/-- Where a client is after a step. -/
def Progress.pc : Progress → Pc
  | next pc => pc
  | returns _ => .idle

/-- A step of the account of a client with the ids `owns`. -/
def OwnStep (owns : Set Bytes) (τ : Stacks) (c : Completed) (τ' : Stacks) : Prop :=
  c.request.id ∈ owns ∧ SpecStep τ c τ'

/-- The account after a step. -/
def Progress.Accounts (owns : Set Bytes) (τ τ' : Stacks) : Progress → Prop
  | next _ => τ' = τ
  | returns c => OwnStep owns τ c τ'

/-- What a step leads to, for the client that takes it. -/
structure Outcome (hash : Bytes → ℕ) (owns : Set Bytes) (pending freed : Set PMEMoid)
    (s : PMDKHashtableStorage) (τ : Stacks) (n : ℕ) (pc : Pc)
    (result : PMDKHashtableStorage × Progress) : Prop where
  effect : ∃ id ∈ owns, Effect hash id pending s.pool freed result.1.pool pc.removes
    result.2.pc.removes
  nbuckets : result.1.nbuckets = s.nbuckets
  ok : result.2.pc.Ok hash result.1.pool (freedAfter freed pc.removes result.2.pc.removes) owns n
  apart : ∀ d, result.2.pc.pending = some d → d ∉ pending
  account : ∃ τ', result.2.Accounts owns τ τ' ∧ result.2.pc.Sees hash result.1.pool owns τ'

section Steps

variable {hash : Bytes → ℕ} {owns : Set Bytes} {pending freed : Set PMEMoid}
  {s : PMDKHashtableStorage} {τ : Stacks} {pc : Pc} {id src : Bytes} {oid : PMEMoid} {use : Lookup}
  {answer : Option Allocation} {front rest : List ListElem} {n : ℕ}

/-- The bucket of an id is computed with the number of buckets of the table. -/
theorem Turn.hashfun_eq (h : Turn hash owns pending freed s τ n pc) (id : Bytes) :
    s.hashfun hash id = hash id % s.pool.nbuckets := by
  rw [hashfun, h.nbuckets]

/-- No entry of a client that removes nothing is cleared. -/
theorem Turn.notMem_freed (h : Turn hash owns pending freed s τ n pc) (hpc : pc.removes = none)
    (hid : id ∈ owns) (hfirst : s.pool.Foremost hash id oid) : oid ∉ freed := by
  intro hmem
  rcases h.cleared oid hmem with hremoves | ⟨id', hnot, hfirst'⟩
  · rw [hpc] at hremoves
    cases hremoves
  · have hne : id ≠ id' := by
      rintro rfl
      exact hnot hid
    exact h.pool.foremost_ne hfirst hfirst' (h.storable id hid).nulFree hne rfl

/-- No new object has the OID of a cleared entry. -/
theorem Turn.fresh_notMem_freed (h : Turn hash owns pending freed s τ n pc)
    (hpc : pc.removes = none) {size : ℕ} {a : Allocation} (ha : s.pool.Fresh size a) :
    a.oid ∉ freed := by
  intro hmem
  rcases h.cleared a.oid hmem with hremoves | ⟨id', _, x, rest, hx, hoid⟩
  · rw [hpc] at hremoves
    cases hremoves
  · obtain ⟨_, front, back, hb⟩ := Pool.exists_split_of_named hx
    have hlinked : x ∈ s.pool.buckets (hash id' % s.pool.nbuckets) := by simp [hb]
    exact ha.entry _ x hlinked hoid

/-- A lookup that finds nothing replies the same for all uses, and changes no stack. -/
theorem spec_lookup_nil (hnil : τ id = []) (use : Lookup) :
    (Request.lookup use id).spec false false τ = (.error (.thrown .pmdkCantFindKey), τ) := by
  cases use <;> simp [Request.spec, hnil, Stacks.pop_of_nil hnil, outcome, Except.map]

/-- The walk goes on, or ends with the answer that its account determines. -/
theorem Turn.walkTo (h : Turn hash owns pending freed s τ n pc) (hpc : pc.removes = none)
    (hview : pc.view τ = τ) (hid : id ∈ owns)
    (hb : s.pool.buckets (s.hashfun hash id) = front ++ rest)
    (hfront : ∀ y ∈ front, y.entry.isNamed id = false) {use : Lookup} {m : ℕ}
    (hm : rest.length + use.steps ≤ m) :
    Outcome hash owns pending freed s τ m pc (s, walkTo use id rest) := by
  rw [h.hashfun_eq] at hb
  have hstack := h.sees.stack
  rw [hview] at hstack
  cases rest with
  | nil =>
    have hnamed : s.pool.named hash id = [] := by
      rw [Pool.named, hb, List.append_nil, List.filter_eq_nil_iff]
      intro y hy
      simp [hfront y hy]
    have hnil : τ id = [] := by
      rw [← hstack id hid, Pool.stack, hnamed, Pool.values, List.filterMap_nil]
    refine ⟨⟨id, hid, ?_⟩, rfl, trivial, by rintro d ⟨⟩, τ,
      ⟨hid, spec_lookup_nil hnil use⟩, ?_⟩
    · rw [hpc]
      exact .same
    · exact ⟨hstack, by rintro id oid ⟨⟩⟩
  | cons x back =>
    have hok : (Pc.walking use id (.on x.oid)).Ok hash s.pool freed owns m := by
      refine ⟨back.length, ?_, hid, front, x, back, hb, rfl, hfront, le_rfl⟩
      rw [List.length_cons] at hm
      omega
    refine ⟨⟨id, hid, ?_⟩, rfl, hok, by rintro d ⟨⟩, τ, rfl, ?_⟩
    · rw [hpc]
      exact .same
    · exact ⟨hstack, by rintro id oid ⟨⟩⟩

/-- The first step of a call has the outcome of a turn. -/
theorem Turn.begin {r : Request} (h : Turn hash owns pending freed s τ n .idle) (hid : r.id ∈ owns)
    (hanswer : System.Answers s.pool r.wants answer) :
    ∃ m, Outcome hash owns pending freed s τ m .idle (r.begin hash s answer) := by
  cases r with
  | lookup use id =>
    have hb : s.pool.buckets (s.hashfun hash id) = [] ++ s.pool.buckets (s.hashfun hash id) := rfl
    exact ⟨_, h.walkTo rfl rfl hid hb (by simp) le_rfl⟩
  | store id src =>
    cases answer with
    | none =>
      exact ⟨0, ⟨id, hid, .same⟩, rfl, trivial, by rintro d ⟨⟩, τ, ⟨hid, rfl⟩, h.sees.stack,
        by rintro id oid ⟨⟩⟩
    | some a =>
      have hfresh : s.pool.Fresh src.length a := hanswer
      have heffect : Effect hash id pending s.pool freed
          (s.pool.pobjAlloc (allocStr src) (some a)).2 none none := .allocated hfresh
      have hi : (s.pool.pobjAlloc (allocStr src) (some a)).2.Insertable hash
          (hash id % s.pool.nbuckets) ⟨id.length, id, src.length, a.oid⟩ src := by
        refine ⟨rfl, rfl, (h.storable id hid).room, ?_, rfl, hfresh.size_lt,
          h.pool.data_ne_of_fresh hfresh⟩
        simp [Pool.pobjAlloc, allocStr, splice_zero_of_length hfresh.raw.symm]
      refine ⟨1, ⟨id, hid, heffect⟩, rfl, ⟨Nat.one_pos, hid, hi⟩, ?_, τ, rfl, ?_,
        by rintro id oid ⟨⟩⟩
      · rintro d ⟨⟩ hmem
        exact h.allocated a.oid hmem hfresh.block
      · intro id' hid'
        exact (h.pool.stack_pobjAlloc _ hfresh id').trans (h.sees.stack id' hid')

/-- The step that inserts an entry has the outcome of a turn. -/
theorem Turn.insert {data : PMEMoid}
    (h : Turn hash owns pending freed s τ n (.inserting id src data))
    (hanswer : System.Answers s.pool (some PMEMPointer.structSize) answer) :
    Outcome hash owns pending freed s τ (n - 1) (.inserting id src data)
      ((Pc.inserting id src data).step hash s answer) := by
  obtain ⟨_, hid, hi⟩ := h.ok
  rw [Pc.step, h.hashfun_eq]
  cases answer with
  | none =>
    exact ⟨⟨id, hid, .same⟩, rfl, trivial, by rintro d ⟨⟩, τ, ⟨hid, rfl⟩, h.sees.stack,
      by rintro id oid ⟨⟩⟩
  | some e =>
    have hfresh : s.pool.Fresh PMEMPointer.structSize e := hanswer
    have heffect : Effect hash id pending s.pool freed (s.pool.insertEntry
        (hash id % s.pool.nbuckets) ⟨id.length, id, src.length, data⟩ e) none none :=
      .inserted hi hfresh (h.fresh_notMem_freed rfl hfresh) (h.apart data rfl)
    refine ⟨⟨id, hid, heffect⟩, rfl, trivial, by rintro d ⟨⟩, τ.push id src, ⟨hid, rfl⟩, ?_,
      by rintro id oid ⟨⟩⟩
    intro id' hid'
    have hstack : s.pool.stack hash id' = τ id' := h.sees.stack id' hid'
    have hinsert := Pool.stack_insertEntry hi hfresh id'
    rw [if_congr (sameBucket_iff (h.storable id hid).nulFree) rfl rfl, hstack] at hinsert
    refine hinsert.trans ?_
    change _ = τ.push id src id'
    by_cases heq : id' = id
    · simp [Stacks.push, heq]
    · simp [Stacks.push, heq]

/-- A step of the walk has the outcome of a turn. -/
theorem Turn.walk (h : Turn hash owns pending freed s τ n (.walking use id (.on oid))) :
    Outcome hash owns pending freed s τ (n - 1) (.walking use id (.on oid))
      ((Pc.walking use id (.on oid)).step hash s answer) := by
  obtain ⟨m, hm, hid, front, x, back, hb, rfl, hfront, hback⟩ := h.ok
  rw [Pc.step, h.hashfun_eq, h.pool.entriesFrom_eq hb]
  by_cases hx : x.entry.isNamed id = true
  · have hfirst : s.pool.Foremost hash id x.oid :=
      ⟨x, _, Pool.foremost_of_standing hb hfront hx, rfl⟩
    simp only [hx, if_true]
    refine ⟨⟨id, hid, .same⟩, rfl, ⟨by omega, hid, hfirst, ?_⟩, by rintro d ⟨⟩, τ, rfl,
      h.sees.stack, by rintro id oid ⟨⟩⟩
    simpa [Pc.removes, Progress.pc] using h.notMem_freed rfl hid hfirst
  · simp only [hx]
    have hb' : s.pool.buckets (s.hashfun hash id) = (front ++ [x]) ++ back := by
      rw [h.hashfun_eq, hb, List.append_assoc, List.singleton_append]
    refine h.walkTo rfl rfl hid hb' ?_ (by omega)
    intro y hy
    rcases List.mem_append.mp hy with hy | hy
    · exact hfront y hy
    · rw [List.mem_singleton.mp hy]
      simpa using hx

/-- The step in which a client uses the entry that it found has the outcome of a turn. -/
theorem Turn.finish (h : Turn hash owns pending freed s τ n (.found use id oid)) :
    Outcome hash owns pending freed s τ (n - 1) (.found use id oid)
      ((Pc.found use id oid).step hash s answer) := by
  obtain ⟨hsteps, hid, ⟨x, rest, hx, rfl⟩, hfreed⟩ := h.ok
  obtain ⟨hnamed, front, back, hb⟩ := Pool.exists_split_of_named hx
  have hmem : x ∈ s.pool.buckets (hash id % s.pool.nbuckets) := by simp [hb]
  obtain ⟨v, hv, hlen⟩ := h.pool.live hmem hfreed
  have hstack : τ id = v :: s.pool.values rest := by
    have hsees := h.sees.stack id hid
    rw [Pool.stack, hx, Pool.values, List.filterMap_cons, hv] at hsees
    exact hsees.symm
  rw [Pc.step, h.hashfun_eq, h.pool.entriesFrom_eq hb]
  cases use with
  | find =>
    refine ⟨⟨id, hid, .same⟩, rfl, trivial, by rintro d ⟨⟩, τ, ⟨hid, ?_⟩, h.sees.stack,
      by rintro id oid ⟨⟩⟩
    simp [SpecStep, Request.spec, hstack,
      outcome, read_whole hv hlen, hlen, Except.map]
  | load =>
    refine ⟨⟨id, hid, .same⟩, rfl, trivial, by rintro d ⟨⟩, τ, ⟨hid, ?_⟩, h.sees.stack,
      by rintro id oid ⟨⟩⟩
    simp [SpecStep, Request.spec, hstack,
      outcome, read_whole hv hlen, Except.map]
  | free =>
    simp only [Lookup.finish, h.hashfun_eq]
    have heffect : Effect hash id pending s.pool freed
        (s.pool.pobjFree (hash id % s.pool.nbuckets) x) none (some x.oid) := .cleared hx hfreed
    have hfirst : (s.pool.pobjFree (hash id % s.pool.nbuckets) x).Foremost hash id x.oid := by
      refine ⟨Pool.clearElem x x, rest.map (Pool.clearElem x), ?_, Pool.clearElem_oid x x⟩
      rw [h.pool.named_pobjFree hmem, hx, List.map_cons]
    have hleft : 0 < n - 1 := by
      simp only [Lookup.steps] at hsteps
      omega
    refine ⟨⟨id, hid, heffect⟩, rfl, ⟨hleft, hid, hfirst, ?_⟩, by rintro d ⟨⟩, τ, rfl, ?_, ?_⟩
    · simp [Pc.removes, Progress.pc]
    · intro id' hid'
      change (s.pool.pobjFree (hash id % s.pool.nbuckets) x).stack hash id' = τ.pop id id'
      by_cases heq : id' = id
      · subst heq
        rw [h.pool.stack_pobjFree hmem hfreed, h.pool.filter_first hx, Stacks.pop, hstack]
        simp
      · rw [heffect.stack_other h.pool (h.storable id hid).nulFree (Ne.symm heq), Stacks.pop,
          Function.update_of_ne heq]
        exact h.sees.stack id' hid'
    · rintro id' oid ⟨⟩
      rw [hstack]
      exact List.cons_ne_nil _ _

/-- The step that removes an entry has the outcome of a turn. -/
theorem Turn.remove (h : Turn hash owns pending freed s τ n (.removing id oid)) :
    Outcome hash owns pending freed s τ (n - 1) (.removing id oid)
      ((Pc.removing id oid).step hash s answer) := by
  obtain ⟨_, hid, ⟨x, rest, hx, rfl⟩, hfreed⟩ := h.ok
  obtain ⟨_, front, back, hb⟩ := Pool.exists_split_of_named hx
  rw [Pc.step, h.hashfun_eq]
  have heffect : Effect hash id pending s.pool freed
      (s.pool.pobjListRemoveFree (hash id % s.pool.nbuckets) x.oid) (some x.oid) none :=
    .removed hx hfreed
  refine ⟨⟨id, hid, heffect⟩, rfl, trivial, by rintro d ⟨⟩, τ.pop id, ⟨hid, ?_⟩, ?_,
    by rintro id oid ⟨⟩⟩
  · obtain ⟨v, l, hcons⟩ := List.exists_cons_of_ne_nil (h.sees.popped id x.oid rfl)
    simp [SpecStep, Request.spec, hcons, outcome, Except.map]
  · intro id' hid'
    rw [h.pool.stack_remove (by simp [hb]) hfreed]
    exact h.sees.stack id' hid'

/-- The next step of a call brings the call nearer to its end. -/
theorem Turn.tick (h : Turn hash owns pending freed s τ n pc) (hpc : pc ≠ .idle)
    (hanswer : System.Answers s.pool pc.wants answer) :
    0 < n ∧ Outcome hash owns pending freed s τ (n - 1) pc (pc.step hash s answer) := by
  have hok := h.ok
  cases pc with
  | idle => exact absurd rfl hpc
  | inserting id src data => exact ⟨hok.1, h.insert hanswer⟩
  | walking use id cursor =>
    cases cursor with
    | dangling => exact hok.elim
    | on oid =>
      obtain ⟨m, hm, _⟩ := hok
      exact ⟨by omega, h.walk⟩
  | found use id oid =>
    have hsteps := hok.1
    refine ⟨?_, h.finish⟩
    cases use <;> simp only [Lookup.steps] at hsteps <;> omega
  | removing id oid => exact ⟨hok.1, h.remove⟩

/-- What a client relies on is kept by the steps of another one, which removes no
entry that the client stands on. -/
theorem Pc.Ok.other {p q : Pool} {before after : Option PMEMoid}
    (hok : pc.Ok hash p freed owns n) (h : Effect hash id pending p freed q before after)
    (hwf : p.Wf hash freed) (hid : NulFree id) (hother : id ∉ owns)
    (hpending : ∀ d, pc.pending = some d → d ∈ pending)
    (hstands : ∀ o, pc.standsOn = some o → before ≠ some o) :
    pc.Ok hash q (freedAfter freed before after) owns n := by
  have hne {id' : Bytes} (hid' : id' ∈ owns) : id ≠ id' := by
    rintro rfl
    exact hother hid'
  cases pc with
  | idle => trivial
  | inserting id' src data =>
    obtain ⟨hn, hid', hi⟩ := hok
    refine ⟨hn, hid', ?_⟩
    rw [h.nbuckets]
    exact h.insertable_other hwf hi (hpending data rfl)
  | walking use id' cursor =>
    cases cursor with
    | dangling => exact hok
    | on oid =>
      obtain ⟨m, hm, hid', hstand⟩ := hok
      exact ⟨m, hm, hid', h.standing_other hwf hid (hne hid') (hstands oid rfl) hstand⟩
  | found use id' oid =>
    obtain ⟨hn, hid', hfirst, hfreed⟩ := hok
    refine ⟨hn, hid', h.foremost_other hwf hid (hne hid') hfirst, ?_⟩
    rintro (⟨hmem, _⟩ | hafter)
    · exact hfreed hmem
    · exact hwf.foremost_ne (h.foremost (Or.inr hafter)) hfirst hid (hne hid') rfl
  | removing id' oid =>
    obtain ⟨hn, hid', hfirst, hfreed⟩ := hok
    refine ⟨hn, hid', h.foremost_other hwf hid (hne hid') hfirst, Or.inl ⟨hfreed, ?_⟩⟩
    intro hbefore
    exact hwf.foremost_ne (h.foremost (Or.inl hbefore)) hfirst hid (hne hid') rfl

/-- What a client sees is kept by the steps of another one. -/
theorem Pc.Sees.other {p q : Pool} {before after : Option PMEMoid} (hsees : pc.Sees hash p owns τ)
    (h : Effect hash id pending p freed q before after) (hwf : p.Wf hash freed)
    (hid : NulFree id) (hother : id ∉ owns) : pc.Sees hash q owns τ := by
  refine ⟨?_, hsees.popped⟩
  intro id' hid'
  have hne : id ≠ id' := by
    rintro rfl
    exact hother hid'
  rw [h.stack_other hwf hid hne]
  exact hsees.stack id' hid'

end Steps

end Pmemcpy
