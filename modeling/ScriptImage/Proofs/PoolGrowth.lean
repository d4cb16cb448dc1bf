import Mathlib.Data.List.Forall2
import ScriptImage.Proofs.PassRuns

/-!
# Pools that grow

Removing the entries that instructions hold takes them back into the pool.  The entries of the
pool stay, and after them come the contents that it lacked, each once, in the order in which
the code holds them first:

    pool'.contents = grown pool.contents (held kind rs)

An operand is found while the pool is still growing, but it is right for the pool that is left:
the first entry with a content stays the first one when others come after it.  So removing
fails exactly if some content has its first place in the grown pool too far behind for an
operand; a full pool is one way to come to that.
-/

namespace ScriptImage

/-! ## Lists of contents -/

/-- Contents with new ones at the end: each that is not there yet, once, in order of first occurrence. -/
def grown (contents added : List (List UInt8)) : List (List UInt8) :=
  contents ++ (added.filter fun bytes => bytes ∉ contents).eraseDups

section

variable {contents added : List (List UInt8)} {bytes : List UInt8}

theorem grown_nil (contents : List (List UInt8)) : grown contents [] = contents := by
  rw [grown, List.filter_nil, List.eraseDups_nil, List.append_nil]

theorem grown_cons_of_mem (h : bytes ∈ contents) :
    grown contents (bytes :: added) = grown contents added := by
  rw [grown, List.filter_cons_of_neg (by simpa using h)]
  rfl

theorem grown_cons_of_not_mem (h : bytes ∉ contents) :
    grown contents (bytes :: added) = grown (contents ++ [bytes]) added := by
  have hfilter : (added.filter fun x => x ∉ contents).filter (fun x => !x == bytes) =
      added.filter fun x => x ∉ contents ++ [bytes] := by
    rw [List.filter_filter]
    refine List.filter_congr fun x _ => ?_
    simp only [List.mem_append, List.mem_singleton, not_or, Bool.decide_and]
    rw [Bool.and_comm]
    congr 1
    by_cases hx : x = bytes <;> simp [hx]
  rw [grown, List.filter_cons_of_pos (by simpa using h), List.eraseDups_cons, hfilter, grown,
    List.append_assoc, List.singleton_append]

theorem isPrefix_grown (contents added : List (List UInt8)) : contents <+: grown contents added :=
  List.prefix_append _ _

/-- Growing by all contents at once is growing by one after the other. -/
theorem grown_append (contents added more : List (List UInt8)) :
    grown contents (added ++ more) = grown (grown contents added) more := by
  induction added generalizing contents with
  | nil => rw [grown_nil, List.nil_append]
  | cons bytes added ih =>
    rw [List.cons_append]
    by_cases h : bytes ∈ contents
    · rw [grown_cons_of_mem h, grown_cons_of_mem h, ih]
    · rw [grown_cons_of_not_mem h, grown_cons_of_not_mem h, ih]

end

/-! ## One entry -/

namespace StringPool

variable {p p' : StringPool} {k : Nat}

/-- An index of a pool. -/
theorem lt_maxEntries {bytes : List UInt8} (h : IsFirst p.contents bytes k) : k < maxEntries := by
  have hlt := h.lt_length
  have hle := p.size_le
  rw [length_contents] at hlt
  omega

/-- What is looked up is added if it is not there. -/
theorem grown_of_findOrPush {form : StringForm} {s : ByteString form} (h : p.findOrPush s = .ok (p', k)) :
    p'.contents = grown p.contents [s.bytes] ∧ IsFirst p'.contents s.bytes k := by
  refine ⟨?_, indexOf?_eq_some_iff.1 (findOrPush_spec h).1⟩
  unfold findOrPush at h
  split at h
  · next hfound =>
    cases h
    rw [grown_cons_of_mem (mem_of_indexOf? hfound), grown_nil]
  · next hmissing =>
    rw [grown_cons_of_not_mem (not_mem_of_indexOf? hmissing), grown_nil]
    unfold push at h
    split at h
    · split at h
      · next s' hcast =>
        cases h
        rw [contents_snoc, ByteString.bytes_of_ofBytes hcast]
      · cases h
    · cases h

/-- Only a full pool refuses a new entry of its own form. -/
theorem full_of_findOrPush {form : StringForm} {s : ByteString form} (hform : form = p.form) {e : Error}
    (h : p.findOrPush s = .error e) :
    e = .poolFull ∧ p.contents.length = maxEntries ∧ s.bytes ∉ p.contents := by
  subst hform
  unfold findOrPush at h
  split at h
  · cases h
  · next hmissing =>
    unfold push at h
    split at h
    · rw [ByteString.recast, ByteString.ofBytes_bytes] at h
      cases h
    · next hfull =>
      cases h
      have hle := p.size_le
      rw [length_contents]
      exact ⟨rfl, by omega, not_mem_of_indexOf? hmissing⟩

end StringPool

/-! ## One instruction -/

namespace PoolKind

/-- The form in which the table of a pool is stored. -/
def form : PoolKind → StringForm
  | .strings => .p16z
  | .symbols | .globals => .p8z

/-- The greatest index of an entry that an instruction can refer to. -/
def lastIndex : PoolKind → Nat
  | .strings | .symbols => 65534
  | .globals => 32767

/-- What an operand has beside the index. -/
def flag : PoolKind → Nat
  | .strings | .symbols => 0
  | .globals => 32768

/-- An index of a pool has an operand exactly if it is not too great. -/
theorem le_maxIndex_iff {kind : PoolKind} {k : Nat} (h : k < maxEntries) :
    k ≤ kind.maxIndex ↔ k ≤ kind.lastIndex := by
  unfold maxEntries at h
  cases kind with
  | strings => exact iff_of_true (show k ≤ 65535 by omega) (show k ≤ 65534 by omega)
  | symbols => exact iff_of_true (show k ≤ 65535 by omega) (show k ≤ 65534 by omega)
  | globals => exact Iff.rfl

theorem lastIndex_lt (kind : PoolKind) : kind.lastIndex < maxEntries := by
  cases kind <;> decide

theorem toNat_operand {kind : PoolKind} {k : Nat} (h : k ≤ kind.lastIndex) :
    (kind.operand k).toNat = kind.flag + k := by
  cases kind with
  | globals => exact Variable.toNat_globalFlag_or h
  | strings | symbols =>
    change k ≤ 65534 at h
    show (UInt16.ofNat k).toNat = 0 + k
    rw [UInt16.toNat_ofNat', Nat.mod_eq_of_lt (by omega), Nat.zero_add]

theorem operandOf_error {kind : PoolKind} {k : Nat} {e : Error} (h : Inlining.operandOf kind k = .error e) :
    e.kind = .range ∧ ¬k ≤ kind.maxIndex := by
  have hmax : ¬k ≤ kind.maxIndex := fun hk => by
    rw [operandOf_eq_ok_iff.2 ⟨hk, rfl⟩] at h
    cases h
  refine ⟨?_, hmax⟩
  cases kind with
  | globals =>
    have hlt : Variable.maxGlobal < k := Nat.lt_of_not_le hmax
    rw [Inlining.operandOf, Variable.ofGlobal, if_pos hlt] at h
    cases h
    rfl
  | strings | symbols =>
    have hge : ¬k < 65536 := fun hk => hmax (Nat.le_of_lt_succ hk)
    rw [Inlining.operandOf, if_neg hge] at h
    cases h
    rfl

end PoolKind

namespace Inlining

/-- The content that an instruction holds in the place of an index into a pool. -/
def content? (kind : PoolKind) (i : Instr) : Option (List UInt8) :=
  (text? kind i).map fun text => text.2.bytes

/-- The contents that routines hold in the place of indices into a pool. -/
def held (kind : PoolKind) (rs : List Routine) : List (List UInt8) :=
  rs.flatMap fun r => r.filterMap (content? kind)

/-- What becomes of an instruction where the pool has these contents in the end: one that holds an
entry refers to the first that is equal to it, and all others stay. -/
inductive Extracted (kind : PoolKind) (contents : List (List UInt8)) : Instr → Instr → Prop where
  | other {i : Instr} (h : i.subject? ≠ some kind.subject) : Extracted kind contents i i
  | entry {s : Symbolic} {o : Op} {rule : Rule} {text : ByteString kind.form} {args : List Cell}
      {index : Nat} {raw : UInt16} (hrule : rule ∈ rules) (hpool : rule.pool = kind)
      (hkind : s.kind = rule.kind) (hargs : s.args = ⟨.string kind.form, text⟩ :: args)
      (hfirst : IsFirst contents text.bytes index) (hlast : index ≤ kind.lastIndex)
      (hraw : raw.toNat = kind.flag + index) (hcode : o.code = rule.code)
      (hargs' : o.args = ⟨.uint16, raw⟩ :: args) : Extracted kind contents (.symbolic s) (.op o)

variable {kind : PoolKind} {pool pool' : StringPool}

theorem content?_of_ne {i : Instr} (h : i.subject? ≠ some kind.subject) : content? kind i = none := by
  rw [content?, text?_of_ne h]
  rfl

theorem Extracted.of_isPrefix {contents contents' : List (List UInt8)} {i i' : Instr}
    (h : Extracted kind contents i i') (hle : contents <+: contents') : Extracted kind contents' i i' := by
  cases h with
  | other h => exact .other h
  | entry hrule hpool hkind hargs hfirst hlast hraw hcode hargs' =>
    exact .entry hrule hpool hkind hargs (hfirst.of_isPrefix hle) hlast hraw hcode hargs'

/-- A content that an instruction held has its first place where an operand reaches it. -/
theorem Extracted.exists_isFirst {contents : List (List UInt8)} {i i' : Instr} {bytes : List UInt8}
    (h : Extracted kind contents i i') (hbytes : content? kind i = some bytes) :
    ∃ k ≤ kind.lastIndex, IsFirst contents bytes k := by
  cases h with
  | other h =>
    rw [content?_of_ne h] at hbytes
    cases hbytes
  | @entry s _ _ _ _ _ _ hrule hpool hkind hargs hfirst hlast _ _ _ =>
    have hown : s.kind.subject = kind.subject := by
      rw [hkind, (rule_spec hrule).2.2, hpool]
    rw [content?, text?_of_args hown hargs] at hbytes
    cases hbytes
    exact ⟨_, hlast, hfirst⟩

/-- The rule for an instruction that holds an entry, and the form that the entry has. -/
theorem exists_rule {s : Symbolic} (hs : s.kind.subject = kind.subject) :
    ∃ rule ∈ rules, rule.pool = kind ∧ rule.kind = s.kind ∧ ruleOfKind? kind s.kind = some rule ∧
      ∃ text : ByteString kind.form, ∃ args, s.args = ⟨.string kind.form, text⟩ :: args ∧
        ∀ raw, ∃ o, Op.ofArgs rule.code (⟨.uint16, raw⟩ :: args) = .ok o := by
  obtain ⟨rule, hrule⟩ : ∃ rule, ruleOfKind? kind s.kind = some rule :=
    Option.ne_none_iff_exists'.1 fun h => ruleOfKind?_eq_none_iff.1 h hs
  obtain ⟨hmem, rfl, hkind⟩ := ruleOfKind?_eq_some_iff.1 hrule
  refine ⟨rule, hmem, rfl, hkind, hrule, ?_⟩
  clear hs hrule
  obtain ⟨code, operands⟩ := s
  simp only [rules, List.mem_cons, List.not_mem_nil, or_false] at hmem
  rcases hmem with rfl | rfl | rfl | rfl | rfl | rfl <;> cases hkind <;>
    exact ⟨_, _, rfl, fun raw => ⟨_, rfl⟩⟩

/-- A step at an instruction that holds an entry. -/
theorem extract_of_rule {s : Symbolic} {rule : Rule} (hrule : ruleOfKind? kind s.kind = some rule)
    {text : ByteString kind.form} {args : List Cell} (hargs : s.args = ⟨.string kind.form, text⟩ :: args)
    (pool : StringPool) (q : Int) :
    extract kind pool q (.symbolic s) = (do
      let (pool', index) ← pool.findOrPush text
      let raw ← operandOf kind index
      let o ← Op.ofArgs rule.code (⟨.uint16, raw⟩ :: args)
      return (pool', some (.op o))) := by
  rw [extract, hrule, hargs]

theorem extract_of_ne {i : Instr} (h : i.subject? ≠ some kind.subject) (pool : StringPool) (q : Int) :
    extract kind pool q i = .ok (pool, none) := by
  cases i with
  | op o => rfl
  | symbolic s => rw [extract, ruleOfKind?_eq_none_iff.2 fun hs => h (congrArg some hs)]

/-- What a step does that succeeds. -/
theorem extracted_of_extract {q : Int} {i : Instr} {change : Option Instr}
    (h : extract kind pool q i = .ok (pool', change)) :
    pool'.form = pool.form ∧ pool'.contents = grown pool.contents (content? kind i).toList ∧
      (if change.isSome then 1 else 0) = (content? kind i).toList.length ∧
      Extracted kind pool'.contents i (change.getD i) := by
  by_cases hs : i.subject? = some kind.subject
  · cases i with
    | op o => cases hs
    | symbolic s =>
      have hown : s.kind.subject = kind.subject := Option.some.inj hs
      obtain ⟨rule, hmem, hpool, hkind, hrule, text, args, hargs, -⟩ := exists_rule hown
      rw [extract_of_rule hrule hargs] at h
      obtain ⟨⟨pool₁, index⟩, hpush, h⟩ := Run.except_bind_eq_ok_iff.1 h
      obtain ⟨raw, hraw, h⟩ := Run.except_bind_eq_ok_iff.1 h
      obtain ⟨o, ho, h⟩ := Run.except_bind_eq_ok_iff.1 h
      cases h
      obtain ⟨hgrown, hfirst⟩ := StringPool.grown_of_findOrPush hpush
      obtain ⟨hle, rfl⟩ := PoolKind.operandOf_eq_ok_iff.1 hraw
      have hlast := (PoolKind.le_maxIndex_iff (StringPool.lt_maxEntries hfirst)).1 hle
      obtain ⟨hcode, hoargs⟩ := Op.ofArgs_eq_ok_iff.1 ho
      rw [content?, text?_of_args hown hargs]
      exact ⟨StringPool.form_of_findOrPush hpush, hgrown, rfl,
        .entry hmem hpool hkind.symm hargs hfirst hlast (PoolKind.toNat_operand hlast) hcode hoargs⟩
  · rw [extract_of_ne hs] at h
    cases h
    rw [content?_of_ne hs]
    exact ⟨rfl, (grown_nil _).symm, rfl, .other hs⟩

/-- What it means that entries cannot be taken back: one of them would come to stand too far behind. -/
def TooMany (kind : PoolKind) (contents added : List (List UInt8)) : Prop :=
  ∃ bytes ∈ added, ∃ k, IsFirst (grown contents added) bytes k ∧ kind.lastIndex < k

theorem TooMany.append_left {contents added more : List (List UInt8)} (h : TooMany kind contents added) :
    TooMany kind contents (added ++ more) := by
  obtain ⟨bytes, hmem, k, hfirst, hlt⟩ := h
  refine ⟨bytes, List.mem_append_left _ hmem, k, ?_, hlt⟩
  rw [grown_append]
  exact hfirst.of_isPrefix (isPrefix_grown _ _)

theorem TooMany.append_right {contents added more : List (List UInt8)}
    (h : TooMany kind (grown contents added) more) : TooMany kind contents (added ++ more) := by
  obtain ⟨bytes, hmem, k, hfirst, hlt⟩ := h
  refine ⟨bytes, List.mem_append_right _ hmem, k, ?_, hlt⟩
  rw [grown_append]
  exact hfirst

/-- What a step means that fails. -/
theorem tooMany_of_extract (hform : pool.form = kind.form) {q : Int} {i : Instr} {e : Error}
    (h : extract kind pool q i = .error e) :
    e.kind = .range ∧ TooMany kind pool.contents (content? kind i).toList := by
  by_cases hs : i.subject? = some kind.subject
  · cases i with
    | op o => cases hs
    | symbolic s =>
      have hown : s.kind.subject = kind.subject := Option.some.inj hs
      obtain ⟨rule, -, -, -, hrule, text, args, hargs, hops⟩ := exists_rule hown
      have hcontent : (content? kind (.symbolic s)).toList = [text.bytes] := by
        rw [content?, text?_of_args hown hargs]
        rfl
      rw [extract_of_rule hrule hargs, Run.except_bind_eq_error_iff] at h
      rw [hcontent]
      rcases h with hpush | ⟨⟨pool₁, index⟩, hpush, h⟩
      · -- the pool is full, so the entry would stand after its last one
        obtain ⟨rfl, hlen, hmissing⟩ := StringPool.full_of_findOrPush hform.symm hpush
        refine ⟨rfl, text.bytes, List.mem_singleton_self _, pool.contents.length, ?_, ?_⟩
        · rw [grown_cons_of_not_mem hmissing, grown_nil]
          exact .concat hmissing
        · rw [hlen]
          exact kind.lastIndex_lt
      · obtain ⟨hgrown, hfirst⟩ := StringPool.grown_of_findOrPush hpush
        rcases Run.except_bind_eq_error_iff.1 h with hraw | ⟨raw, -, h⟩
        · obtain ⟨hrange, hle⟩ := PoolKind.operandOf_error hraw
          rw [PoolKind.le_maxIndex_iff (StringPool.lt_maxEntries hfirst)] at hle
          rw [hgrown] at hfirst
          exact ⟨hrange, text.bytes, List.mem_singleton_self _, index, hfirst, by omega⟩
        · obtain ⟨o, ho⟩ := hops raw
          rw [ho] at h
          cases h
  · rw [extract_of_ne hs] at h
    cases h

/-! ## All instructions -/

theorem filterMap_content?_cons (i : Instr) (r : Routine) :
    (i :: r).filterMap (content? kind) = (content? kind i).toList ++ r.filterMap (content? kind) := by
  rw [List.filterMap_cons]
  cases content? kind i <;> rfl

theorem exists_of_forall₂ {α β : Type} {R : α → β → Prop} {as : List α} {bs : List β}
    (h : List.Forall₂ R as bs) {a : α} (ha : a ∈ as) : ∃ b, R a b := by
  induction h with
  | nil => cases ha
  | cons hab _ ih =>
    rcases List.mem_cons.1 ha with rfl | ha
    · exact ⟨_, hab⟩
    · exact ih ha

theorem extracted_of_routine {p : Int} {r r' : Routine} {n : Nat}
    (h : Visit.routine (extract kind) pool p r = .ok (pool', n, r')) :
    pool'.form = pool.form ∧ pool'.contents = grown pool.contents (r.filterMap (content? kind)) ∧
      n = (r.filterMap (content? kind)).length ∧ List.Forall₂ (Extracted kind pool'.contents) r r' := by
  induction r generalizing pool p n r' with
  | nil =>
    cases h
    exact ⟨rfl, (grown_nil _).symm, rfl, .nil⟩
  | cons i r ih =>
    obtain ⟨pool₁, change, pool₂, m, rest, hstep, hrun, heq⟩ := Visit.routine_cons.1 h
    cases heq
    obtain ⟨hform₁, hgrown₁, hone, hfirst⟩ := extracted_of_extract hstep
    obtain ⟨hform, hgrown, rfl, hrest⟩ := ih hrun
    have hle : pool₁.contents <+: pool'.contents := hgrown ▸ isPrefix_grown _ _
    rw [filterMap_content?_cons, List.length_append, ← hone]
    refine ⟨hform.trans hform₁, ?_, ?_, .cons (hfirst.of_isPrefix hle) hrest⟩
    · rw [grown_append, ← hgrown₁]
      exact hgrown
    · split <;> omega

theorem extracted_of_remove {rs rs' : List Routine} {n : Nat}
    (h : remove kind pool rs = .ok (pool', n, rs')) :
    pool'.form = pool.form ∧ pool'.contents = grown pool.contents (held kind rs) ∧
      n = (held kind rs).length ∧ List.Forall₂ (List.Forall₂ (Extracted kind pool'.contents)) rs rs' := by
  unfold remove at h
  induction rs generalizing pool n rs' with
  | nil =>
    cases h
    exact ⟨rfl, (grown_nil _).symm, rfl, .nil⟩
  | cons r rs ih =>
    rw [Visit.routines] at h
    obtain ⟨⟨pool₁, n₁, r'⟩, hfirst, h⟩ := Run.except_bind_eq_ok_iff.1 h
    obtain ⟨⟨pool₂, n₂, rest⟩, hrest, heq⟩ := Run.except_bind_eq_ok_iff.1 h
    cases heq
    obtain ⟨hform₁, hgrown₁, rfl, hall₁⟩ := extracted_of_routine hfirst
    obtain ⟨hform, hgrown, rfl, hall⟩ := ih hrest
    have hle : pool₁.contents <+: pool'.contents := hgrown ▸ isPrefix_grown _ _
    rw [held, List.flatMap_cons, List.length_append]
    refine ⟨hform.trans hform₁, ?_, rfl, .cons (hall₁.imp fun _ _ hi => hi.of_isPrefix hle) hall⟩
    rw [grown_append, ← hgrown₁]
    exact hgrown

theorem tooMany_of_routine (hform : pool.form = kind.form) {p : Int} {r : Routine} {e : Error}
    (h : Visit.routine (extract kind) pool p r = .error e) :
    e.kind = .range ∧ TooMany kind pool.contents (r.filterMap (content? kind)) := by
  induction r generalizing pool p with
  | nil => cases h
  | cons i r ih =>
    rw [Visit.routine] at h
    rw [filterMap_content?_cons]
    rcases Run.except_bind_eq_error_iff.1 h with hstep | ⟨⟨pool₁, change⟩, hstep, h⟩
    · obtain ⟨hrange, hmany⟩ := tooMany_of_extract hform hstep
      exact ⟨hrange, hmany.append_left⟩
    · obtain ⟨hform₁, hgrown, -⟩ := extracted_of_extract hstep
      rcases Run.except_bind_eq_error_iff.1 h with hrest | ⟨⟨pool₂, n, r'⟩, -, h⟩
      · obtain ⟨hrange, hmany⟩ := ih (hform₁.trans hform) hrest
        rw [hgrown] at hmany
        exact ⟨hrange, hmany.append_right⟩
      · cases change <;> cases h

theorem tooMany_of_remove (hform : pool.form = kind.form) {rs : List Routine} {e : Error}
    (h : remove kind pool rs = .error e) :
    e.kind = .range ∧ TooMany kind pool.contents (held kind rs) := by
  unfold remove at h
  induction rs generalizing pool with
  | nil => cases h
  | cons r rs ih =>
    rw [Visit.routines] at h
    rw [held, List.flatMap_cons]
    rcases Run.except_bind_eq_error_iff.1 h with hfirst | ⟨⟨pool₁, n₁, r'⟩, hfirst, h⟩
    · obtain ⟨hrange, hmany⟩ := tooMany_of_routine hform hfirst
      exact ⟨hrange, hmany.append_left⟩
    · obtain ⟨hform₁, hgrown, -⟩ := extracted_of_routine hfirst
      rcases Run.except_bind_eq_error_iff.1 h with hrest | ⟨⟨pool₂, n₂, rs'⟩, -, h⟩
      · obtain ⟨hrange, hmany⟩ := ih (hform₁.trans hform) hrest
        rw [hgrown] at hmany
        exact ⟨hrange, hmany.append_right⟩
      · cases h

/-- Where removing succeeds, every content is near enough. -/
theorem not_tooMany_of_remove {rs rs' : List Routine} {n : Nat}
    (h : remove kind pool rs = .ok (pool', n, rs')) : ¬TooMany kind pool.contents (held kind rs) := by
  obtain ⟨-, hgrown, -, hall⟩ := extracted_of_remove h
  rintro ⟨bytes, hmem, k, hfirst, hlt⟩
  obtain ⟨r, hr, hmem⟩ := List.mem_flatMap.1 hmem
  obtain ⟨i, hi, hbytes⟩ := List.mem_filterMap.1 hmem
  obtain ⟨r', hr'⟩ := exists_of_forall₂ hall hr
  obtain ⟨i', hi'⟩ := exists_of_forall₂ hr' hi
  obtain ⟨k', hle, hfirst'⟩ := hi'.exists_isFirst hbytes
  rw [← hgrown] at hfirst
  have := hfirst.unique hfirst'
  omega

/-- **Removing grows the pool no more than needed.**  The pool keeps its entries and gets the contents
that the code holds and that it lacks, and every instruction that held one refers to the first entry that
is equal to it.  Removing fails only if one of these entries is too far behind to be referred to. -/
theorem remove_grows (hform : pool.form = kind.form) (rs : List Routine) :
    (∀ pool' n rs', remove kind pool rs = .ok (pool', n, rs') →
      pool'.form = kind.form ∧ pool'.contents = grown pool.contents (held kind rs) ∧
        n = (held kind rs).length ∧ List.Forall₂ (List.Forall₂ (Extracted kind pool'.contents)) rs rs') ∧
    (∀ e, remove kind pool rs = .error e → e.kind = .range) ∧
    ((∃ e, remove kind pool rs = .error e) ↔
      ∃ bytes ∈ held kind rs, ∃ k, IsFirst (grown pool.contents (held kind rs)) bytes k ∧
        kind.lastIndex < k) := by
  refine ⟨fun pool' n rs' h => ?_, fun e h => (tooMany_of_remove hform h).1, ?_, fun hmany => ?_⟩
  · obtain ⟨hform', hrest⟩ := extracted_of_remove h
    exact ⟨hform'.trans hform, hrest⟩
  · rintro ⟨e, h⟩
    exact (tooMany_of_remove hform h).2
  · cases h : remove kind pool rs with
    | error e => exact ⟨e, rfl⟩
    | ok result => exact absurd hmany (not_tooMany_of_remove h)

/-- A pool that has one entry twice. -/
def growthPool : StringPool :=
  .letters .p8z [97, 98, 97]

/-- Code that holds this entry, two new ones, of which one twice, and an entry of another pool. -/
def growthCode : List Routine :=
  [[.symbolic ⟨.getMemberNamed, (.letter 99, ())⟩, .op (.pushInt32 0),
    .symbolic ⟨.callMethodNamed, (.letter 97, 2, ())⟩],
   [.symbolic ⟨.setMemberNamed, (.letter 100, ())⟩, .symbolic ⟨.getMemberNamed, (.letter 99, ())⟩,
    .symbolic ⟨.pushGlobal, (.letter 99, ())⟩]]

/-- The same code with indices. -/
def growthLowered : List Routine :=
  [[.op ⟨.getMember, (3, ())⟩, .op (.pushInt32 0), .op ⟨.callMethod, (0, 2, ())⟩],
   [.op ⟨.setMember, (4, ())⟩, .op ⟨.getMember, (3, ())⟩, .symbolic ⟨.pushGlobal, (.letter 99, ())⟩]]

/-- Each new entry is added once, and the entry that is there twice is referred to where it stands first. -/
theorem remove_grows_twice :
    growthPool.form = PoolKind.symbols.form ∧
      remove .symbols growthPool growthCode = .ok (.letters .p8z [97, 98, 97, 99, 100], 4, growthLowered) ∧
      grown growthPool.contents (held .symbols growthCode) = [[97], [98], [97], [99], [100]] := by
  have hform : growthPool.form = PoolKind.symbols.form := rfl
  have hrun : remove .symbols growthPool growthCode =
      .ok (.letters .p8z [97, 98, 97, 99, 100], 4, growthLowered) := by decide +kernel
  obtain ⟨-, hcontents, -, -⟩ := (remove_grows hform growthCode).1 _ _ _ hrun
  exact ⟨hform, hrun, hcontents.symm⟩

end Inlining

end ScriptImage
