import Mathlib.Data.List.Nodup
import ScriptImage.Proofs.Visiting

/-!
# Passes on pool entries and class names

An index may stand in the place of another one with the same entry.  The canonical index of an
entry is the first with its content; `canonicalPool` and `canonicalClass` put canonical indices
in the place of those that are in range.  Adding entries changes what an image stands for to
that, since the entry forgets which of several indices it came from:

    image.StandsFor code → image'.StandsFor (code.map (List.map (canonicalPool kind image.header)))

Removing entries lowers the image, and the pool does not grow.
-/

namespace ScriptImage

open Jumps (isMarker)

/-! ## Canonical indices -/

/-- The index of the first entry with the content of entry `k`; `k` itself if it is out of range. -/
def StringPool.canonicalIndex (p : StringPool) (k : Nat) : Nat :=
  match p.contents[k]? with
  | some bytes => p.contents.idxOf bytes
  | none => k

/-- The operand with the canonical index in the place of the index; local variables stay. -/
def PoolKind.canonicalOperand (kind : PoolKind) (p : StringPool) (raw : UInt16) : UInt16 :=
  match kind with
  | .strings | .symbols => UInt16.ofNat (p.canonicalIndex raw.toNat)
  | .globals =>
    if (Variable.mk raw).isGlobal then
      Variable.globalFlag ||| UInt16.ofNat (p.canonicalIndex (raw &&& ~~~Variable.globalFlag).toNat)
    else raw

namespace Op

/-- Changes the operand that refers to a pool. -/
def mapPoolOperand (kind : PoolKind) (f : UInt16 → UInt16) (o : Op) : Op :=
  match kind, o with
  | .strings, ⟨.pushString, (k, ())⟩ => ⟨.pushString, (f k, ())⟩
  | .symbols, ⟨.getMember, (k, ())⟩ => ⟨.getMember, (f k, ())⟩
  | .symbols, ⟨.setMember, (k, ())⟩ => ⟨.setMember, (f k, ())⟩
  | .symbols, ⟨.callMethod, (k, argc, ())⟩ => ⟨.callMethod, (f k, argc, ())⟩
  | .globals, ⟨.pushVariable, (v, ())⟩ => ⟨.pushVariable, (f v, ())⟩
  | .globals, ⟨.popVariable, (v, ())⟩ => ⟨.popVariable, (f v, ())⟩
  | _, o => o

/-- The instruction with a canonical index into a pool. -/
def canonicalPool (kind : PoolKind) (h : Header) : Op → Op :=
  mapPoolOperand kind (kind.canonicalOperand (h.pool kind))

/-- The instruction with the first class of the same name. -/
def canonicalClass (t : ClassTable) : Op → Op
  | .newObject index =>
    match t.entries[index.toNat]? with
    | some c => .newObject (UInt16.ofNat ((t.firstIndex? c.name.bytes).getD index.toNat))
    | none => .newObject index
  | o => o

end Op

/-! ## First places -/

/-- The smallest index at which a content stands. -/
def IsFirst (contents : List (List UInt8)) (bytes : List UInt8) (k : Nat) : Prop :=
  contents[k]? = some bytes ∧ ∀ j < k, contents[j]? ≠ some bytes

namespace IsFirst

variable {contents contents' : List (List UInt8)} {bytes : List UInt8} {j k : Nat}

theorem lt_length (h : IsFirst contents bytes k) : k < contents.length :=
  (List.getElem?_eq_some_iff.1 h.1).1

theorem unique (hj : IsFirst contents bytes j) (hk : IsFirst contents bytes k) : j = k := by
  rcases Nat.lt_trichotomy j k with hlt | heq | hgt
  · exact absurd hj.1 (hk.2 j hlt)
  · exact heq
  · exact absurd hk.1 (hj.2 k hgt)

/-- What comes after the first place of a content does not move it. -/
theorem of_isPrefix (h : IsFirst contents bytes k) (hle : contents <+: contents') :
    IsFirst contents' bytes k := by
  obtain ⟨rest, rfl⟩ := hle
  have hlt := h.lt_length
  refine ⟨?_, fun j hj => ?_⟩
  · rw [List.getElem?_append_left hlt]
    exact h.1
  · rw [List.getElem?_append_left (by omega)]
    exact h.2 j hj

/-- A new content stands first where it is added. -/
theorem concat (h : bytes ∉ contents) : IsFirst (contents ++ [bytes]) bytes contents.length := by
  refine ⟨List.getElem?_concat_length, fun j hj hcontra => h ?_⟩
  rw [List.getElem?_append_left hj] at hcontra
  exact List.mem_of_getElem? hcontra

end IsFirst

/-- The first index of a content is the first at which it stands. -/
theorem findIdx?_content_eq_some_iff {contents : List (List UInt8)} {bytes : List UInt8} {k : Nat} :
    contents.findIdx? (· == bytes) = some k ↔ IsFirst contents bytes k := by
  rw [List.findIdx?_eq_some_iff_getElem]
  constructor
  · rintro ⟨hk, heq, hbefore⟩
    refine ⟨?_, fun j hj hcontra => ?_⟩
    · rw [List.getElem?_eq_getElem hk, beq_iff_eq.1 heq]
    · obtain ⟨hlen, hj'⟩ := List.getElem?_eq_some_iff.1 hcontra
      exact hbefore j hj (beq_iff_eq.2 hj')
  · rintro ⟨hk, hbefore⟩
    obtain ⟨hlen, heq⟩ := List.getElem?_eq_some_iff.1 hk
    refine ⟨hlen, beq_iff_eq.2 heq, fun j hj hcontra => hbefore j hj ?_⟩
    rw [List.getElem?_eq_getElem (Nat.lt_trans hj hlen), beq_iff_eq.1 hcontra]

theorem not_mem_of_findIdx?_content {contents : List (List UInt8)} {bytes : List UInt8}
    (h : contents.findIdx? (· == bytes) = none) : bytes ∉ contents := by
  intro hmem
  have hne := List.findIdx?_eq_none_iff.1 h bytes hmem
  rw [beq_self_eq_true] at hne
  cases hne

/-- Every content has a first index. -/
theorem exists_findIdx?_content {contents : List (List UInt8)} {bytes : List UInt8} {k : Nat}
    (h : contents[k]? = some bytes) : ∃ j ≤ k, contents.findIdx? (· == bytes) = some j := by
  cases hj : contents.findIdx? (· == bytes) with
  | none => exact absurd (List.mem_of_getElem? h) (not_mem_of_findIdx?_content hj)
  | some j =>
    refine ⟨j, ?_, rfl⟩
    by_cases hle : j ≤ k
    · exact hle
    · exact absurd h ((findIdx?_content_eq_some_iff.1 hj).2 k (by omega))

/-- A content that stands once is found there. -/
theorem findIdx?_content_of_count {contents : List (List UInt8)} {bytes : List UInt8} {k : Nat}
    (hcount : contents.count bytes ≤ 1) (h : contents[k]? = some bytes) :
    contents.findIdx? (· == bytes) = some k := by
  refine findIdx?_content_eq_some_iff.2 ⟨h, fun j hj hcontra => ?_⟩
  obtain ⟨hk, hat⟩ := List.getElem?_eq_some_iff.1 h
  -- a second place would count in the part before the first
  have hbefore : bytes ∈ contents.take k := by
    refine List.mem_of_getElem? (i := j) ?_
    rw [List.getElem?_take_of_lt hj]
    exact hcontra
  have hafter : bytes ∈ contents.drop k := by
    rw [List.drop_eq_getElem_cons hk, hat]
    exact List.mem_cons_self
  have hsplit : contents.count bytes = (contents.take k).count bytes + (contents.drop k).count bytes := by
    rw [← List.count_append, List.take_append_drop]
  have hleft := List.count_pos_iff.2 hbefore
  have hright := List.count_pos_iff.2 hafter
  omega

namespace StringPool

theorem indexOf?_eq (p : StringPool) (bytes : List UInt8) :
    p.indexOf? bytes = p.contents.findIdx? fun content => content == bytes := by
  obtain ⟨form, ⟨entries⟩, hsize⟩ := p
  show (Array.mk entries).findIdx? _ = (entries.map ByteString.bytes).findIdx? _
  rw [List.findIdx?_map, List.findIdx?_toArray]
  rfl

theorem getElem?_contents (p : StringPool) (k : Nat) :
    p.contents[k]? = p.entries[k]?.map ByteString.bytes := by
  unfold contents
  rw [List.getElem?_map, Array.getElem?_toList]

theorem length_contents (p : StringPool) : p.contents.length = p.entries.size := by
  rw [contents, List.length_map, Array.length_toList]

theorem contents_snoc (p : StringPool) (s : ByteString p.form) (room : p.entries.size < maxEntries) :
    (p.snoc s room).contents = p.contents ++ [s.bytes] := by
  simp [contents, snoc]

/-- The index of a content is the first index at which it stands. -/
theorem indexOf?_eq_some_iff {p : StringPool} {bytes : List UInt8} {k : Nat} :
    p.indexOf? bytes = some k ↔ IsFirst p.contents bytes k := by
  rw [indexOf?_eq]
  exact findIdx?_content_eq_some_iff

theorem exists_indexOf? {p : StringPool} {bytes : List UInt8} {k : Nat}
    (h : p.contents[k]? = some bytes) : ∃ j ≤ k, p.indexOf? bytes = some j := by
  rw [indexOf?_eq]
  exact exists_findIdx?_content h

theorem mem_of_indexOf? {p : StringPool} {bytes : List UInt8} {k : Nat} (h : p.indexOf? bytes = some k) :
    bytes ∈ p.contents :=
  List.mem_of_getElem? (indexOf?_eq_some_iff.1 h).1

theorem not_mem_of_indexOf? {p : StringPool} {bytes : List UInt8} (h : p.indexOf? bytes = none) :
    bytes ∉ p.contents := by
  rw [indexOf?_eq] at h
  exact not_mem_of_findIdx?_content h

theorem canonicalIndex_of_indexOf? {p : StringPool} {bytes : List UInt8} {j k : Nat}
    (h : p.contents[k]? = some bytes) (hj : p.indexOf? bytes = some j) : p.canonicalIndex k = j := by
  rw [indexOf?_eq] at hj
  rw [canonicalIndex, h]
  exact (List.findIdx?_eq_some_iff_findIdx_eq.1 hj).2

theorem canonicalIndex_of_none {p : StringPool} {k : Nat} (h : p.contents[k]? = none) :
    p.canonicalIndex k = k := by
  rw [canonicalIndex, h]

/-- With distinct contents every index is canonical. -/
theorem canonicalIndex_of_nodup {p : StringPool} (h : p.contents.Nodup) (k : Nat) :
    p.canonicalIndex k = k := by
  cases hk : p.contents[k]? with
  | none => exact canonicalIndex_of_none hk
  | some bytes =>
    refine canonicalIndex_of_indexOf? hk ?_
    rw [indexOf?_eq]
    exact findIdx?_content_of_count (List.nodup_iff_count.1 h bytes) hk

/-! ### Adding entries -/

/-- Adds the texts that the pool lacks, one after the other. -/
def intern (p : StringPool) (texts : List (Sigma ByteString)) : Except Error StringPool :=
  texts.foldlM (fun p text => (p.findOrPush text.2).map Prod.fst) p

/-- An index of a content stays when entries are added. -/
theorem indexOf?_of_isPrefix {p p' : StringPool} (h : p.contents <+: p'.contents) {bytes : List UInt8}
    {k : Nat} (hk : p.indexOf? bytes = some k) : p'.indexOf? bytes = some k :=
  indexOf?_eq_some_iff.2 ((indexOf?_eq_some_iff.1 hk).of_isPrefix h)

/-- What is found or added is at the index that is answered, and entries that were there stay. -/
theorem findOrPush_spec {p p' : StringPool} {form : StringForm} {s : ByteString form} {k : Nat}
    (h : p.findOrPush s = .ok (p', k)) :
    p'.indexOf? s.bytes = some k ∧ p.contents <+: p'.contents := by
  unfold findOrPush at h
  cases hfound : p.indexOf? s.bytes with
  | some index =>
    rw [hfound] at h
    cases h
    exact ⟨hfound, List.prefix_refl _⟩
  | none =>
    rw [hfound] at h
    simp only [push] at h
    split at h
    · next room =>
      split at h
      · next s' hcast =>
        cases h
        have hcontents : (p.snoc s' room).contents = p.contents ++ [s.bytes] := by
          rw [contents_snoc, ByteString.bytes_of_ofBytes hcast]
        rw [indexOf?_eq_some_iff, hcontents, ← length_contents]
        exact ⟨.concat (not_mem_of_indexOf? hfound), List.prefix_append _ _⟩
      · cases h
    · cases h

theorem form_of_findOrPush {p p' : StringPool} {form : StringForm} {s : ByteString form} {k : Nat}
    (h : p.findOrPush s = .ok (p', k)) : p'.form = p.form := by
  unfold findOrPush push at h
  split at h
  · cases h
    rfl
  · split at h
    · split at h
      · cases h
        rfl
      · cases h
    · cases h

/-- Entries are added at the end, in the pool's own form. -/
theorem intern_spec {p p' : StringPool} {texts : List (Sigma ByteString)}
    (h : p.intern texts = .ok p') : p'.form = p.form ∧ p.contents <+: p'.contents := by
  unfold intern at h
  induction texts generalizing p with
  | nil =>
    cases h
    exact ⟨rfl, List.prefix_refl _⟩
  | cons text texts ih =>
    rw [List.foldlM_cons] at h
    obtain ⟨p₁, hfirst, h⟩ := Run.except_bind_eq_ok_iff.1 h
    obtain ⟨⟨p₂, k⟩, hpush, rfl⟩ := Run.except_map_eq_ok_iff.1 hfirst
    obtain ⟨hform, hentries⟩ := ih h
    exact ⟨hform.trans (form_of_findOrPush hpush), (findOrPush_spec hpush).2.trans hentries⟩

/-- A pool that holds all texts stays as it is. -/
theorem intern_of_found {p : StringPool} {texts : List (Sigma ByteString)}
    (h : ∀ text ∈ texts, ∃ k, p.indexOf? text.2.bytes = some k) : p.intern texts = .ok p := by
  unfold intern
  induction texts with
  | nil => rfl
  | cons text texts ih =>
    obtain ⟨k, hk⟩ := h text List.mem_cons_self
    have hfound : p.findOrPush text.2 = .ok (p, k) := by
      rw [findOrPush, hk]
    rw [List.foldlM_cons, hfound]
    exact ih fun text' htext => h text' (List.mem_cons_of_mem _ htext)

end StringPool

/-! ## Operands -/

namespace Variable

theorem isGlobal_iff {raw : UInt16} : (Variable.mk raw).isGlobal = true ↔ 32768 ≤ raw.toNat := by
  have hlt := raw.toNat_lt
  have hand : (raw &&& globalFlag).toNat = raw.toNat &&& 2 ^ 15 := UInt16.toNat_and ..
  unfold isGlobal
  rw [bne_iff_ne, ne_eq, ← UInt16.toNat_inj, hand]
  by_cases h : 32768 ≤ raw.toNat
  · refine iff_of_true (fun hzero => ?_) h
    have hbit := congrArg (Nat.testBit · 15) hzero
    have htop : raw.toNat.testBit 15 = true := by
      rw [Nat.testBit_eq_decide_div_mod_eq]
      exact decide_eq_true (by omega)
    simp only [Nat.testBit_and, Nat.testBit_two_pow_self, htop] at hbit
    cases hbit
  · refine iff_of_false (not_not_intro (Nat.eq_of_testBit_eq fun i => ?_)) h
    rw [Nat.testBit_and, Nat.testBit_two_pow]
    by_cases hi : 15 = i
    · rw [← hi, Nat.testBit_lt_two_pow (by omega)]
      rfl
    · rw [decide_eq_false hi, Bool.and_false]
      exact (Nat.zero_testBit i).symm

theorem toNat_and_not_globalFlag (raw : UInt16) : (raw &&& ~~~globalFlag).toNat = raw.toNat % 32768 := by
  rw [UInt16.toNat_and, show (~~~globalFlag).toNat = 2 ^ 15 - 1 from rfl, Nat.and_two_pow_sub_one_eq_mod]

theorem toNat_globalFlag_or {k : Nat} (h : k ≤ maxGlobal) :
    (globalFlag ||| UInt16.ofNat k).toNat = 32768 + k := by
  unfold maxGlobal at h
  have hor := Nat.two_pow_add_eq_or_of_lt (show k < 2 ^ 15 by omega) 1
  rw [Nat.mul_one] at hor
  rw [UInt16.toNat_or, UInt16.toNat_ofNat', Nat.mod_eq_of_lt (by omega),
    show globalFlag.toNat = 2 ^ 15 from rfl, ← hor]

end Variable

namespace PoolKind

/-- The operand that stands for an index that is small enough. -/
def operand (kind : PoolKind) (k : Nat) : UInt16 :=
  match kind with
  | .strings | .symbols => UInt16.ofNat k
  | .globals => Variable.globalFlag ||| UInt16.ofNat k

/-- The greatest index that has an operand. -/
def maxIndex : PoolKind → Nat
  | .strings | .symbols => 65535
  | .globals => Variable.maxGlobal

theorem operandOf_eq_ok_iff {kind : PoolKind} {k : Nat} {raw : UInt16} :
    Inlining.operandOf kind k = .ok raw ↔ k ≤ kind.maxIndex ∧ raw = kind.operand k := by
  have hplain : ∀ name, (if k < 65536 then .ok (UInt16.ofNat k) else
      .error (.indexTooWide name k) : Except Error UInt16) = .ok raw ↔
      k ≤ 65535 ∧ raw = UInt16.ofNat k := by
    intro name
    by_cases hk : k < 65536
    · rw [if_pos hk, Except.ok.injEq, eq_comm]
      exact ⟨fun h => ⟨by omega, h⟩, fun h => h.2⟩
    · rw [if_neg hk]
      exact iff_of_false nofun fun h => hk (by omega)
  cases kind with
  | strings => exact hplain _
  | symbols => exact hplain _
  | globals =>
    unfold Inlining.operandOf Variable.ofGlobal
    by_cases hk : Variable.maxGlobal < k
    · simp only [if_pos hk]
      exact iff_of_false nofun fun h => Nat.not_lt_of_le h.1 hk
    · simp only [if_neg hk, Except.map, Except.ok.injEq]
      exact ⟨fun h => ⟨Nat.le_of_not_lt hk, h.symm⟩, fun h => h.2.symm⟩

/-- An operand refers to an index exactly if it stands for it. -/
theorem indexOf?_eq_some_iff {kind : PoolKind} {k : Nat} {raw : UInt16} :
    Inlining.indexOf? kind raw = some k ↔ k ≤ kind.maxIndex ∧ raw = kind.operand k := by
  have hlt := raw.toNat_lt
  have hplain : some raw.toNat = some k ↔ k ≤ 65535 ∧ raw = UInt16.ofNat k := by
    rw [Option.some.injEq]
    constructor
    · rintro rfl
      exact ⟨by omega, UInt16.ofNat_toNat.symm⟩
    · rintro ⟨hk, rfl⟩
      rw [UInt16.toNat_ofNat', Nat.mod_eq_of_lt (by omega)]
  cases kind with
  | strings => exact hplain
  | symbols => exact hplain
  | globals =>
    show Variable.globalIndex? _ = _ ↔ k ≤ Variable.maxGlobal ∧ raw = Variable.globalFlag ||| UInt16.ofNat k
    unfold Variable.globalIndex?
    rw [Variable.toNat_and_not_globalFlag]
    show (if _ then some (raw.toNat % 32768) else none) = _ ↔ _
    constructor
    · intro h
      by_cases hg : (Variable.mk raw).isGlobal = true
      · rw [if_pos hg, Option.some.injEq] at h
        have hle := Variable.isGlobal_iff.1 hg
        have hk : k ≤ Variable.maxGlobal := by
          unfold Variable.maxGlobal
          omega
        refine ⟨hk, UInt16.toNat_inj.1 ?_⟩
        rw [Variable.toNat_globalFlag_or hk]
        omega
      · rw [if_neg hg] at h
        cases h
    · rintro ⟨hk, hraw⟩
      have hnat : raw.toNat = 32768 + k := by rw [hraw, Variable.toNat_globalFlag_or hk]
      rw [if_pos (Variable.isGlobal_iff.2 (by omega)), hnat]
      unfold Variable.maxGlobal at hk
      have : (32768 + k) % 32768 = k := by omega
      rw [this]

theorem canonicalOperand_of_some {kind : PoolKind} {p : StringPool} {raw : UInt16} {k : Nat}
    (h : Inlining.indexOf? kind raw = some k) :
    kind.canonicalOperand p raw = kind.operand (p.canonicalIndex k) := by
  cases kind with
  | strings =>
    cases h
    rfl
  | symbols =>
    cases h
    rfl
  | globals =>
    change Variable.globalIndex? _ = _ at h
    unfold Variable.globalIndex? at h
    by_cases hg : (Variable.mk raw).isGlobal = true
    · rw [if_pos hg] at h
      cases h
      unfold canonicalOperand operand
      simp only [if_pos hg]
    · rw [if_neg hg] at h
      cases h

theorem canonicalOperand_of_none {kind : PoolKind} {p : StringPool} {raw : UInt16}
    (h : Inlining.indexOf? kind raw = none) : kind.canonicalOperand p raw = raw := by
  cases kind with
  | strings => cases h
  | symbols => cases h
  | globals =>
    change Variable.globalIndex? _ = _ at h
    unfold Variable.globalIndex? at h
    by_cases hg : (Variable.mk raw).isGlobal = true
    · rw [if_pos hg] at h
      cases h
    · unfold canonicalOperand
      simp only [if_neg hg]

/-- An operand whose index is canonical, or that has none, is canonical. -/
theorem canonicalOperand_eq_self {kind : PoolKind} {p : StringPool} {raw : UInt16}
    (h : ∀ k, Inlining.indexOf? kind raw = some k → p.canonicalIndex k = k) :
    kind.canonicalOperand p raw = raw := by
  cases hk : Inlining.indexOf? kind raw with
  | none => exact canonicalOperand_of_none hk
  | some k =>
    rw [canonicalOperand_of_some hk, h k hk]
    exact (indexOf?_eq_some_iff.1 hk).2.symm

end PoolKind

/-! ## Rules -/

namespace Inlining

/-- A rule is found by its pool and a part that tells the rules of one pool apart. -/
theorem find?_rules_eq_some_iff {γ : Type} [DecidableEq γ] {key : Rule → γ}
    (hkey : (rules.map fun r => (r.pool, key r)).Nodup) {kind : PoolKind} {k : γ} {rule : Rule} :
    (rules.find? fun r => r.pool = kind && key r = k) = some rule ↔
      rule ∈ rules ∧ rule.pool = kind ∧ key rule = k := by
  constructor
  · intro h
    have hp := List.find?_some h
    simp only [Bool.and_eq_true, decide_eq_true_eq] at hp
    exact ⟨List.mem_of_find?_eq_some h, hp⟩
  · rintro ⟨hmem, rfl, rfl⟩
    cases h : rules.find? fun r => r.pool = rule.pool && key r = key rule with
    | none => exact absurd (by simp) (List.find?_eq_none.1 h rule hmem)
    | some r =>
      have hp := List.find?_some h
      simp only [Bool.and_eq_true, decide_eq_true_eq] at hp
      rw [List.inj_on_of_nodup_map hkey (List.mem_of_find?_eq_some h) hmem (Prod.ext hp.1 hp.2)]

theorem ruleOfCode?_eq_some_iff {kind : PoolKind} {code : Opcode} {rule : Rule} :
    ruleOfCode? kind code = some rule ↔ rule ∈ rules ∧ rule.pool = kind ∧ rule.code = code :=
  find?_rules_eq_some_iff (by decide)

theorem ruleOfKind?_eq_some_iff {kind : PoolKind} {k : SymbolicKind} {rule : Rule} :
    ruleOfKind? kind k = some rule ↔ rule ∈ rules ∧ rule.pool = kind ∧ rule.kind = k :=
  find?_rules_eq_some_iff (by decide)

theorem ruleOfKind?_eq_none_iff {kind : PoolKind} {k : SymbolicKind} :
    ruleOfKind? kind k = none ↔ k.subject ≠ kind.subject := by
  cases kind <;> cases k <;> decide

/-- Instructions that refer to one pool do not refer to another. -/
theorem ruleOfCode?_of_ne {rule : Rule} (h : rule ∈ rules) {kind : PoolKind} (hne : rule.pool ≠ kind) :
    ruleOfCode? kind rule.code = none := by
  simp only [rules, List.mem_cons, List.not_mem_nil, or_false] at h
  rcases h with rfl | rfl | rfl | rfl | rfl | rfl <;> cases kind <;> first | rfl | exact absurd rfl hne

theorem code_ne_newObject {rule : Rule} (h : rule ∈ rules) : rule.code ≠ .newObject := by
  have hall : ∀ rule ∈ rules, rule.code ≠ .newObject := by decide
  exact hall rule h

/-- The first operand of an instruction that refers to a pool is a word. -/
theorem exists_args {rule : Rule} (h : rule ∈ rules) {o : Op} (hcode : o.code = rule.code) :
    ∃ raw args, o.args = ⟨.uint16, raw⟩ :: args := by
  obtain ⟨code, operands⟩ := o
  simp only [rules, List.mem_cons, List.not_mem_nil, or_false] at h
  rcases h with rfl | rfl | rfl | rfl | rfl | rfl <;> cases hcode <;> exact ⟨_, _, rfl⟩

end Inlining

namespace Op

theorem code_mapPoolOperand (kind : PoolKind) (f : UInt16 → UInt16) (o : Op) :
    (o.mapPoolOperand kind f).code = o.code := by
  unfold mapPoolOperand
  split <;> rfl

theorem args_mapPoolOperand {rule : Inlining.Rule} (h : rule ∈ Inlining.rules) {o : Op}
    (hcode : o.code = rule.code) {raw : UInt16} {args : List Cell}
    (hargs : o.args = ⟨.uint16, raw⟩ :: args) (f : UInt16 → UInt16) :
    (o.mapPoolOperand rule.pool f).args = ⟨.uint16, f raw⟩ :: args := by
  obtain ⟨code, operands⟩ := o
  simp only [Inlining.rules, List.mem_cons, List.not_mem_nil, or_false] at h
  rcases h with rfl | rfl | rfl | rfl | rfl | rfl <;> cases hcode <;> cases hargs <;> rfl

theorem mapPoolOperand_of_none {kind : PoolKind} {o : Op} (h : Inlining.ruleOfCode? kind o.code = none)
    (f : UInt16 → UInt16) : o.mapPoolOperand kind f = o := by
  unfold mapPoolOperand
  split
  all_goals first | rfl | cases h

theorem jumpRelative_of_code {o : Op} (h : o.code = .jumpRelative) : o = .jumpRelative := by
  obtain ⟨code, operands⟩ := o
  cases h
  rfl

theorem harmless_of_code {f : Op → Op} (h : ∀ o, (f o).code = o.code) : Harmless f := by
  refine ⟨fun o => ?_, fun o => ⟨fun ho => ?_, fun ho => ?_⟩⟩
  · unfold Op.size
    rw [h]
  · apply jumpRelative_of_code
    rw [← h o, ho]
  · apply jumpRelative_of_code
    rw [h o, ho]

theorem harmless_canonicalPool (kind : PoolKind) (h : Header) : Harmless (canonicalPool kind h) :=
  harmless_of_code (code_mapPoolOperand kind _)

/-- Where the operand is canonical, so is the instruction. -/
theorem canonicalPool_eq_self {kind : PoolKind} {h : Header} {o : Op}
    (ho : ∀ raw args, (∃ rule, Inlining.ruleOfCode? kind o.code = some rule) →
      o.args = ⟨.uint16, raw⟩ :: args → kind.canonicalOperand (h.pool kind) raw = raw) :
    canonicalPool kind h o = o := by
  cases hrule : Inlining.ruleOfCode? kind o.code with
  | none => exact mapPoolOperand_of_none hrule _
  | some rule =>
    obtain ⟨hmem, rfl, hcode⟩ := Inlining.ruleOfCode?_eq_some_iff.1 hrule
    obtain ⟨raw, args, hargs⟩ := Inlining.exists_args hmem hcode.symm
    refine ext_args (code_mapPoolOperand _ _ _) ?_
    rw [canonicalPool, args_mapPoolOperand hmem hcode.symm hargs, hargs,
      ho raw args ⟨rule, hrule⟩ hargs]

/-- With distinct contents instructions are canonical. -/
theorem canonicalPool_of_nodup {kind : PoolKind} {h : Header} (hnodup : (h.pool kind).contents.Nodup) :
    canonicalPool kind h = id := by
  funext o
  refine canonicalPool_eq_self fun raw args _ _ => ?_
  exact PoolKind.canonicalOperand_eq_self fun k _ => StringPool.canonicalIndex_of_nodup hnodup k

end Op

/-- What symbolic instructions stand for is canonical. -/
theorem Denotes.canonicalPool {F : Frame} {p : Int} {b : Bool} {s : Symbolic} {o : Op}
    (h : Denotes F p b (.symbolic s) o) (kind : PoolKind) : Op.canonicalPool kind F.header o = o := by
  by_cases hs : s.kind.subject = kind.subject
  · obtain ⟨rule, hrule, rfl, -, form, text, args, index, raw, -, hindex, hraw, hcode, hargs⟩ :=
      h.entry_of_subject hs
    refine Op.canonicalPool_eq_self fun raw' args' _ hargs' => ?_
    rw [hargs] at hargs'
    cases hargs'
    refine PoolKind.canonicalOperand_eq_self fun k hk => ?_
    obtain ⟨hle, rfl⟩ := PoolKind.operandOf_eq_ok_iff.1 hraw
    have hk' := PoolKind.indexOf?_eq_some_iff.2 ⟨hle, rfl⟩
    rw [hk] at hk'
    cases hk'
    exact StringPool.canonicalIndex_of_indexOf? (StringPool.indexOf?_eq_some_iff.1 hindex).1 hindex
  · suffices hnone : Inlining.ruleOfCode? kind o.code = none from Op.mapPoolOperand_of_none hnone _
    cases h with
    | jump => cases kind <;> rfl
    | @branch _ c => cases c <;> cases kind <;> rfl
    | entry hrule hkind _ _ _ hcode _ =>
      rw [hcode]
      refine Inlining.ruleOfCode?_of_ne hrule fun hpool => hs ?_
      rw [hkind, (Inlining.rule_spec hrule).2.2, hpool]
    | newObject => cases kind <;> rfl

/-! ## The passes on pools -/

namespace Inlining

theorem embed_marker {kind : PoolKind} {pool : StringPool} {m : Instr} (h : isMarker m = true) :
    embed kind pool m = .ok none := by
  obtain ⟨id, rfl | rfl⟩ := isMarker_iff.1 h
  · rfl
  · rfl

/-- An index of an entry is replaced by the entry. -/
theorem embed_of_entry {kind : PoolKind} {pool : StringPool} {o : Op} {rule : Rule}
    (hrule : ruleOfCode? kind o.code = some rule) {raw : UInt16} {args : List Cell}
    (hargs : o.args = ⟨.uint16, raw⟩ :: args) {entry : ByteString pool.form}
    (hentry : ((indexOf? kind raw).bind fun k => pool.entries[k]?) = some entry) :
    embed kind pool (.op o) =
      (Symbolic.ofArgs rule.kind (⟨.string pool.form, entry⟩ :: args)).map fun s =>
        some (.symbolic s) := by
  simp only [embed, hrule, hargs, hentry]

theorem embed_of_none {kind : PoolKind} {pool : StringPool} {o : Op} {rule : Rule}
    (hrule : ruleOfCode? kind o.code = some rule) {raw : UInt16} {args : List Cell}
    (hargs : o.args = ⟨.uint16, raw⟩ :: args)
    (hentry : ((indexOf? kind raw).bind fun k => pool.entries[k]?) = none) :
    embed kind pool (.op o) = .ok none := by
  simp only [embed, hrule, hargs, hentry]

/-- What is left as it is was canonical. -/
theorem canonicalPool_of_embed {kind : PoolKind} {h : Header} {o : Op}
    (hembed : embed kind (h.pool kind) (.op o) = .ok none) : Op.canonicalPool kind h o = o := by
  refine Op.canonicalPool_eq_self fun raw args hrule hargs => ?_
  obtain ⟨rule, hrule⟩ := hrule
  refine PoolKind.canonicalOperand_eq_self fun k hk => StringPool.canonicalIndex_of_none ?_
  rw [StringPool.getElem?_contents]
  show Option.map _ (h.pool kind).entries[k]? = none
  cases hentry : (h.pool kind).entries[k]? with
  | none => rfl
  | some entry =>
    rw [embed_of_entry hrule hargs (by rw [hk]; exact hentry)] at hembed
    obtain ⟨s, -, heq⟩ := Run.except_map_eq_ok_iff.1 hembed
    cases heq

/-- What an embedded entry stands for. -/
theorem denotes_of_embed {F : Frame} {p : Int} {b : Bool} {kind : PoolKind} {o : Op} {i : Instr}
    (hembed : embed kind (F.header.pool kind) (.op o) = .ok (some i)) :
    i.subject? = some kind.subject ∧ Denotes F p b i (Op.canonicalPool kind F.header o) := by
  cases hrule : ruleOfCode? kind o.code with
  | none =>
    rw [embed, hrule] at hembed
    cases hembed
  | some rule =>
    obtain ⟨hmem, rfl, hcode⟩ := ruleOfCode?_eq_some_iff.1 hrule
    obtain ⟨raw, args, hargs⟩ := exists_args hmem hcode.symm
    cases hfound : (indexOf? rule.pool raw).bind fun k => (F.header.pool rule.pool).entries[k]? with
    | none =>
      rw [embed_of_none hrule hargs hfound] at hembed
      cases hembed
    | some entry =>
      rw [embed_of_entry hrule hargs hfound] at hembed
      obtain ⟨k, hk, hentry⟩ := Option.bind_eq_some_iff.1 hfound
      obtain ⟨s, hs, heq⟩ := Run.except_map_eq_ok_iff.1 hembed
      cases heq
      obtain ⟨hkind, hsargs⟩ := Symbolic.ofArgs_eq_ok_iff.1 hs
      have hcontent : (F.header.pool rule.pool).contents[k]? = some entry.bytes := by
        rw [StringPool.getElem?_contents, hentry]
        rfl
      obtain ⟨j, hle, hj⟩ := StringPool.exists_indexOf? hcontent
      have hmax := (PoolKind.indexOf?_eq_some_iff.1 hk).1
      refine ⟨?_, Denotes.entry hmem hkind hsargs hj
        (PoolKind.operandOf_eq_ok_iff.2 ⟨Nat.le_trans hle hmax, rfl⟩) ?_ ?_⟩
      · show some s.kind.subject = _
        rw [hkind, (rule_spec hmem).2.2]
      · rw [Op.canonicalPool, Op.code_mapPoolOperand, hcode]
      · rw [Op.canonicalPool, Op.args_mapPoolOperand hmem hcode.symm hargs,
          PoolKind.canonicalOperand_of_some hk, StringPool.canonicalIndex_of_indexOf? hcontent hj]

/-- Putting entries in the place of indices respells each routine. -/
theorem respelled_of_add {kind : PoolKind} {h : Header} {n : Nat} {rs rs' : List Routine}
    {F : Int → Routine → Frame} (hF : ∀ start r, (F start r).header = h)
    (hadd : add kind (h.pool kind) rs = .ok (n, rs')) (p : Int) :
    Along (fun start r r' => Respelled (raising kind.subject (Op.canonicalPool kind h) (F start r'))
      (fun _ => False) (fun _ => False) start r r') p rs rs' := by
  refine (Visit.along_of_each embed_marker hadd p).imp fun {start r r'} hr => ?_
  refine hr.mono ?_ (fun _ => Iff.rfl) (fun _ hf => hf)
  rintro q b i i' - (⟨hnone, rfl⟩ | hsome)
  · refine Or.inl ⟨rfl, fun o ho => ?_⟩
    rw [ho] at hnone
    exact canonicalPool_of_embed hnone
  · cases i with
    | symbolic s => cases hsome
    | op o =>
      rw [← hF start r'] at hsome ⊢
      exact Or.inr ⟨o, rfl, denotes_of_embed hsome⟩

theorem raised_of_add {image : Image} {code : List (List Op)} {kind : PoolKind} {n : Nat}
    {rs' : List Routine} (hstands : image.StandsFor code)
    (h : add kind (image.header.pool kind) image.code.routines = .ok (n, rs')) :
    Image.Raised kind.subject (Op.canonicalPool kind image.header) image (image.withRoutines rs') := by
  have hheader : ∀ start r, ((image.withRoutines rs').frame start r).header = image.header :=
    fun _ _ => rfl
  exact Image.Raised.of_unmarked (Op.harmless_canonicalPool _ _) hstands (respelled_of_add hheader h _)

theorem extract_marker {kind : PoolKind} {pool : StringPool} (q : Int) {m : Instr}
    (h : isMarker m = true) : extract kind pool q m = .ok (pool, none) := by
  obtain ⟨id, rfl | rfl⟩ := isMarker_iff.1 h
  · rw [extract, ruleOfKind?_eq_none_iff.2 fun h => kind.subject_ne.1 h.symm]
  · rw [extract, ruleOfKind?_eq_none_iff.2 fun h => kind.subject_ne.2.1 h.symm]

/-- The text that an instruction holds in the place of an index into a pool. -/
def text? (kind : PoolKind) : Instr → Option (Sigma ByteString)
  | .op _ => none
  | .symbolic s =>
    if s.kind.subject = kind.subject then
      match s.args with
      | ⟨.string form, text⟩ :: _ => some ⟨form, text⟩
      | _ => none
    else none

/-- The texts that routines hold in the place of indices into a pool. -/
def texts (kind : PoolKind) (rs : List Routine) : List (Sigma ByteString) :=
  rs.flatMap fun r => r.filterMap (text? kind)

theorem text?_of_ne {kind : PoolKind} {i : Instr} (h : i.subject? ≠ some kind.subject) :
    text? kind i = none := by
  cases i with
  | op o => rfl
  | symbolic s => exact if_neg fun hs => h (congrArg some hs)

theorem isMarker_of_text? {kind : PoolKind} {i : Instr} {text : Sigma ByteString}
    (h : text? kind i = some text) : isMarker i = false := by
  rw [← Bool.not_eq_true]
  intro hm
  refine absurd h ?_
  rw [text?_of_ne]
  · exact nofun
  · obtain ⟨id, rfl | rfl⟩ := isMarker_iff.1 hm
    · exact fun h => kind.subject_ne.1 (Option.some.inj h).symm
    · exact fun h => kind.subject_ne.2.1 (Option.some.inj h).symm

theorem text?_of_args {kind : PoolKind} {s : Symbolic} (hs : s.kind.subject = kind.subject)
    {form : StringForm} {text : ByteString form} {args : List Cell}
    (hargs : s.args = ⟨.string form, text⟩ :: args) : text? kind (.symbolic s) = some ⟨form, text⟩ := by
  rw [text?, if_pos hs, hargs]

theorem exists_text {kind : PoolKind} {s : Symbolic} (hs : s.kind.subject = kind.subject) :
    ∃ form, ∃ text : ByteString form, ∃ args, s.args = ⟨.string form, text⟩ :: args := by
  obtain ⟨code, operands⟩ := s
  cases kind <;> cases code <;> cases hs <;> exact ⟨_, _, _, rfl⟩

/-- A text that stands for an index is in the pool. -/
theorem indexOf?_of_denotes {F : Frame} {p : Int} {b : Bool} {kind : PoolKind} {i : Instr} {o : Op}
    (ho : Denotes F p b i o) {text : Sigma ByteString} (htext : text? kind i = some text) :
    ∃ k, (F.header.pool kind).indexOf? text.2.bytes = some k := by
  by_cases hs : i.subject? = some kind.subject
  · cases i with
    | op o' => cases hs
    | symbolic s =>
      have hown : s.kind.subject = kind.subject := Option.some.inj hs
      obtain ⟨rule, -, -, -, form, text', args, index, raw, hargs, hindex, -⟩ := ho.entry_of_subject hown
      rw [text?_of_args hown hargs] at htext
      cases htext
      exact ⟨index, hindex⟩
  · rw [text?_of_ne hs] at htext
    cases htext

/-- A step of the visit takes in the text of an instruction and answers what it then stands for. -/
theorem extract_eq_ok_iff {F : Frame} {kind : PoolKind} {pool pool' : StringPool} {q p : Int}
    {b : Bool} {i : Instr} {change : Option Instr}
    (hlast : pool'.contents <+: (F.header.pool kind).contents) :
    extract kind pool q i = .ok (pool', change) ↔
      pool.intern (text? kind i).toList = .ok pool' ∧ Visit.Answers kind.subject F p b i change := by
  by_cases hs : i.subject? = some kind.subject
  · cases i with
    | op o => cases hs
    | symbolic s =>
      have hown : s.kind.subject = kind.subject := Option.some.inj hs
      obtain ⟨form, text, args, hargs⟩ := exists_text hown
      obtain ⟨rule, hrule⟩ : ∃ rule, ruleOfKind? kind s.kind = some rule :=
        Option.ne_none_iff_exists'.1 fun h => ruleOfKind?_eq_none_iff.1 h hown
      obtain ⟨hmem, rfl, hkind⟩ := ruleOfKind?_eq_some_iff.1 hrule
      have hintern : pool.intern (text? rule.pool (.symbolic s)).toList =
          (pool.findOrPush text).map Prod.fst := by
        rw [text?_of_args hown hargs]
        show (pool.findOrPush text).map Prod.fst >>= pure = _
        exact bind_pure _
      rw [hintern, extract, hrule, hargs]
      simp only
      rw [Run.except_bind_eq_ok_iff, Run.except_map_eq_ok_iff]
      constructor
      · rintro ⟨⟨pool₁, index⟩, hpush, h⟩
        obtain ⟨raw, hraw, h⟩ := Run.except_bind_eq_ok_iff.1 h
        obtain ⟨o, ho, h⟩ := Run.except_bind_eq_ok_iff.1 h
        cases h
        obtain ⟨hcode, hoargs⟩ := Op.ofArgs_eq_ok_iff.1 ho
        obtain ⟨hindex, -⟩ := StringPool.findOrPush_spec hpush
        refine ⟨⟨_, hpush, rfl⟩, Or.inr ⟨hs, o, ?_, rfl⟩⟩
        exact Denotes.entry hmem hkind.symm hargs (StringPool.indexOf?_of_isPrefix hlast hindex) hraw
          hcode hoargs
      · rintro ⟨⟨⟨pool₁, index⟩, hpush, rfl⟩, ⟨hne, -⟩ | ⟨-, o, ho, rfl⟩⟩
        · exact absurd hs hne
        · obtain ⟨rule', hmem', -, hkind', form', text', args', index', raw, hargs', hindex', hraw, hcode,
            hoargs⟩ := ho.entry_of_subject hown
          obtain rfl := rule_unique hmem hmem' (hkind.trans hkind')
          rw [hargs] at hargs'
          cases hargs'
          obtain ⟨hindex, -⟩ := StringPool.findOrPush_spec hpush
          obtain rfl := Option.some.inj
            ((StringPool.indexOf?_of_isPrefix hlast hindex).symm.trans hindex')
          have hop := Op.ofArgs_eq_ok_iff.2 ⟨hcode, hoargs⟩
          refine ⟨_, hpush, Run.except_bind_eq_ok_iff.2 ⟨raw, hraw, ?_⟩⟩
          exact Run.except_bind_eq_ok_iff.2 ⟨o, hop, rfl⟩
  · have hnone : extract kind pool q i = .ok (pool, none) := by
      cases i with
      | op o => rfl
      | symbolic s => rw [extract, ruleOfKind?_eq_none_iff.2 fun h => hs (congrArg some h)]
    rw [hnone, text?_of_ne hs]
    constructor
    · intro h
      cases h
      exact ⟨rfl, Or.inl ⟨hs, rfl⟩⟩
    · rintro ⟨hpool, ⟨-, rfl⟩ | ⟨h, -⟩⟩
      · cases hpool
        rfl
      · exact absurd h hs

/-- Removing takes the texts into the pool and lowers the instructions that hold them. -/
theorem remove_eq_ok_iff {kind : PoolKind} {pool pool' : StringPool} {n : Nat} {rs rs' : List Routine}
    {F : Int → Routine → Frame} (hF : ∀ start r, (F start r).header.pool kind = pool') (p : Int) :
    remove kind pool rs = .ok (pool', n, rs') ↔
      pool.intern (texts kind rs) = .ok pool' ∧ n = Routine.remaining kind.subject rs ∧
        Along (fun start r r' => r.Lowered kind.subject (F start r) start r') p rs rs' := by
  obtain ⟨hj, hb, -⟩ := kind.subject_ne
  have hlowers : ∀ {start r}, r ∈ rs → Visit.Lowers (extract kind) (text? kind)
      (fun pool text => (pool.findOrPush text.2).map Prod.fst)
      (fun st => st.contents <+: pool'.contents) kind.subject (F start r) start r := by
    intro start r _
    refine ⟨fun {st q m} hm => ⟨?_, extract_marker q hm⟩, fun _ _ hfits => ?_, fun hpush hfits => ?_⟩
    · refine text?_of_ne fun h => ?_
      obtain ⟨id, rfl | rfl⟩ := isMarker_iff.1 hm
      · exact hj (Option.some.inj h).symm
      · exact hb (Option.some.inj h).symm
    · rw [← hF start r] at hfits
      exact extract_eq_ok_iff hfits
    · obtain ⟨⟨p', k⟩, hpush, rfl⟩ := Run.except_map_eq_ok_iff.1 hpush
      exact (StringPool.findOrPush_spec hpush).2.trans hfits
  unfold remove
  rw [Visit.routines_eq_ok_iff hlowers (List.prefix_refl _) (p := p), Along.iff]
  · rfl
  · exact (Routine.Lowered.iff_of_unmarked hj hb).symm

end Inlining

/-! ## The passes on class names -/

namespace ClassTable

/-- How often a class name occurs. -/
def occurrences (t : ClassTable) (name : List UInt8) : Nat :=
  t.entries.countP fun c => c.name.bytes == name

theorem filter_zipIdx_spec {α : Type} (f : α → Bool) (l : List α) (n : Nat) :
    ((l.zipIdx n).filter fun x => f x.1).length = l.countP f ∧
      ((l.zipIdx n).filter fun x => f x.1).head?.map Prod.snd = (l.findIdx? f).map (· + n) := by
  induction l generalizing n with
  | nil => exact ⟨rfl, rfl⟩
  | cons a l ih =>
    obtain ⟨hlen, hhead⟩ := ih (n + 1)
    rw [List.zipIdx_cons, List.filter_cons, List.findIdx?_cons, List.countP_cons]
    by_cases ha : f a = true
    · simp only [ha, if_true]
      refine ⟨by rw [List.length_cons, hlen], ?_⟩
      show some n = some (0 + n)
      rw [Nat.zero_add]
    · simp only [ha, Bool.false_eq_true, if_false]
      refine ⟨hlen, ?_⟩
      rw [hhead]
      cases l.findIdx? f with
      | none => rfl
      | some k =>
        show some (k + (n + 1)) = some (k + 1 + n)
        rw [Nat.add_comm n 1, Nat.add_assoc]

/-- The index of a name that is not ambiguous is that of the first class with it. -/
theorem uniqueIndex?_eq {t : ClassTable} {name : List UInt8} (hone : t.occurrences name ≤ 1) :
    t.uniqueIndex? name = .ok (t.firstIndex? name) := by
  obtain ⟨hlen, hhead⟩ := filter_zipIdx_spec (fun c : ClassEntry => c.name.bytes == name) t.entries 0
  have hcount : (t.entries.countP fun c => c.name.bytes == name) ≤ 1 := hone
  unfold uniqueIndex? firstIndex?
  generalize hnamed : (t.entries.zipIdx.filter fun x => x.1.name.bytes == name) = named at hlen hhead
  match named with
  | [] =>
    cases hfirst : t.entries.findIdx? fun c => c.name.bytes == name with
    | none => rfl
    | some k =>
      rw [hfirst] at hhead
      cases hhead
  | [(c, first)] =>
    have hfirst : t.entries.findIdx? (fun c => c.name.bytes == name) = some first := by
      simpa using hhead.symm
    simp only [hfirst]
  | (c, first) :: (c', second) :: rest =>
    simp only [List.length_cons] at hlen
    omega

/-- A name that occurs more than once is an error. -/
theorem exists_error_of_many {t : ClassTable} {name : List UInt8} (hmany : 1 < t.occurrences name) :
    ∃ e, t.uniqueIndex? name = .error e := by
  obtain ⟨hlen, -⟩ := filter_zipIdx_spec (fun c : ClassEntry => c.name.bytes == name) t.entries 0
  have hcount : 1 < t.entries.countP fun c => c.name.bytes == name := hmany
  unfold uniqueIndex?
  generalize hnamed : (t.entries.zipIdx.filter fun x => x.1.name.bytes == name) = named at hlen
  match named with
  | [] =>
    simp only [List.length_nil] at hlen
    omega
  | [(c, first)] =>
    simp only [List.length_cons, List.length_nil] at hlen
    omega
  | (c, first) :: (c', second) :: rest => exact ⟨_, rfl⟩

theorem firstIndex?_eq (t : ClassTable) (name : List UInt8) :
    t.firstIndex? name = (t.entries.map fun c => c.name.bytes).findIdx? (· == name) := by
  rw [List.findIdx?_map]
  rfl

theorem occurrences_eq (t : ClassTable) (name : List UInt8) :
    t.occurrences name = (t.entries.map fun c => c.name.bytes).count name := by
  rw [List.count, List.countP_map]
  rfl

end ClassTable

namespace Op

theorem code_canonicalClass (t : ClassTable) (o : Op) : (o.canonicalClass t).code = o.code := by
  unfold canonicalClass
  split
  · split <;> rfl
  · rfl

theorem canonicalClass_of_ne {t : ClassTable} {o : Op} (h : o.code ≠ .newObject) :
    o.canonicalClass t = o := by
  unfold canonicalClass
  split
  · exact absurd rfl h
  · rfl

/-- An instruction with the first index of its class is canonical. -/
theorem canonicalClass_newObject {t : ClassTable} {index : UInt16} {c : ClassEntry} {k : Nat}
    (hc : t.entries[index.toNat]? = some c) (hk : t.firstIndex? c.name.bytes = some k) :
    (Op.newObject index).canonicalClass t = .newObject (UInt16.ofNat k) := by
  simp only [canonicalClass, hc, hk, Option.getD_some]

/-- Where class names are not ambiguous, instructions are canonical. -/
theorem canonicalClass_of_unique {t : ClassTable} {o : Op}
    (h : ∀ index c, o = .newObject index → t.entries[index.toNat]? = some c →
      t.occurrences c.name.bytes ≤ 1) : o.canonicalClass t = o := by
  by_cases hcode : o.code = .newObject
  · obtain ⟨code, operands⟩ := o
    cases hcode
    obtain ⟨index, ⟨⟩⟩ := operands
    cases hc : t.entries[index.toNat]? with
    | none => simp only [canonicalClass, hc]
    | some c =>
      have hcount := h index c rfl hc
      rw [ClassTable.occurrences_eq] at hcount
      have hname : (t.entries.map fun c => c.name.bytes)[index.toNat]? = some c.name.bytes := by
        rw [List.getElem?_map, hc]
        rfl
      have hfirst := findIdx?_content_of_count hcount hname
      rw [← ClassTable.firstIndex?_eq] at hfirst
      rw [canonicalClass_newObject hc hfirst, UInt16.ofNat_toNat]
  · exact canonicalClass_of_ne hcode

end Op

/-- What symbolic instructions stand for is canonical. -/
theorem Denotes.canonicalClass {F : Frame} {p : Int} {b : Bool} {s : Symbolic} {o : Op}
    (h : Denotes F p b (.symbolic s) o) : o.canonicalClass F.header.classes = o := by
  cases h with
  | jump => rfl
  | @branch _ c => cases c <;> rfl
  | entry hrule _ _ _ _ hcode _ =>
    refine Op.canonicalClass_of_ne ?_
    rw [hcode]
    exact Inlining.code_ne_newObject hrule
  | @newObject _ name index hs hindex hwidth =>
    have hat := hindex
    rw [ClassTable.firstIndex?_eq] at hat
    have hentry := (findIdx?_content_eq_some_iff.1 hat).1
    rw [List.getElem?_map] at hentry
    obtain ⟨c, hc, hname⟩ := Option.map_eq_some_iff.1 hentry
    have hnat : (UInt16.ofNat index).toNat = index := by
      rw [UInt16.toNat_ofNat', Nat.mod_eq_of_lt hwidth]
    refine Op.canonicalClass_newObject (c := c) ?_ ?_
    · rw [hnat]
      exact hc
    · rw [hname]
      exact hindex

namespace ClassNames

theorem embed_marker {classes : ClassTable} {m : Instr} (h : isMarker m = true) :
    embed classes m = .ok none := by
  obtain ⟨id, rfl | rfl⟩ := isMarker_iff.1 h
  · rfl
  · rfl

/-- What is left as it is was canonical. -/
theorem canonicalClass_of_embed {classes : ClassTable} {o : Op}
    (h : embed classes (.op o) = .ok none) : o.canonicalClass classes = o := by
  unfold embed at h
  split at h
  · next index heq =>
    cases heq
    split at h
    · cases h
    · next hnone => simp only [Op.canonicalClass, hnone]
  · next hne =>
    refine Op.canonicalClass_of_ne fun hcode => ?_
    obtain ⟨code, operands⟩ := o
    cases hcode
    exact hne operands.1 rfl

/-- What an instantiation by name stands for. -/
theorem denotes_of_embed {F : Frame} {p : Int} {b : Bool} {i i' : Instr}
    (h : embed F.header.classes i = .ok (some i')) :
    ∃ o, i = .op o ∧ i'.subject? = some .classes ∧
      Denotes F p b i' (o.canonicalClass F.header.classes) := by
  unfold embed at h
  split at h
  · next index =>
    split at h
    · next c hc =>
      cases h
      have hcontent : (F.header.classes.entries.map fun c => c.name.bytes)[index.toNat]? =
          some c.name.bytes := by
        rw [List.getElem?_map, hc]
        rfl
      obtain ⟨k, hle, hk⟩ := exists_findIdx?_content hcontent
      rw [← ClassTable.firstIndex?_eq] at hk
      have hlt := index.toNat_lt
      refine ⟨_, rfl, rfl, ?_⟩
      rw [Op.canonicalClass_newObject hc hk]
      exact Denotes.newObject rfl hk (by omega)
    · cases h
  · cases h

/-- Putting names in the place of indices respells each routine. -/
theorem respelled_of_add {classes : ClassTable} {n : Nat} {rs rs' : List Routine}
    {F : Int → Routine → Frame} (hF : ∀ start r, (F start r).header.classes = classes)
    (hadd : add classes rs = .ok (n, rs')) (p : Int) :
    Along (fun start r r' => Respelled (raising .classes (Op.canonicalClass classes) (F start r'))
      (fun _ => False) (fun _ => False) start r r') p rs rs' := by
  refine (Visit.along_of_each embed_marker hadd p).imp fun {start r r'} hr => ?_
  refine hr.mono ?_ (fun _ => Iff.rfl) (fun _ hf => hf)
  rintro q b i i' - (⟨hnone, rfl⟩ | hsome)
  · refine Or.inl ⟨rfl, fun o ho => ?_⟩
    rw [ho] at hnone
    exact canonicalClass_of_embed hnone
  · rw [← hF start r'] at hsome ⊢
    exact Or.inr (denotes_of_embed hsome)

theorem raised_of_add {image : Image} {code : List (List Op)} {n : Nat} {rs' : List Routine}
    (hstands : image.StandsFor code)
    (h : add image.header.classes image.code.routines = .ok (n, rs')) :
    Image.Raised .classes (Op.canonicalClass image.header.classes) image (image.withRoutines rs') := by
  have hclasses : ∀ start r,
      ((image.withRoutines rs').frame start r).header.classes = image.header.classes := fun _ _ => rfl
  exact Image.Raised.of_unmarked (Op.harmless_of_code (Op.code_canonicalClass _)) hstands
    (respelled_of_add hclasses h _)

theorem extract_of_subject_ne {classes : ClassTable} {i : Instr} (h : i.subject? ≠ some .classes) :
    extract classes i = .ok none := by
  unfold extract
  split
  · exact absurd rfl h
  · rfl

theorem extract_marker {classes : ClassTable} {m : Instr} (h : isMarker m = true) :
    extract classes m = .ok none := by
  obtain ⟨id, rfl | rfl⟩ := isMarker_iff.1 h
  · rfl
  · rfl

theorem extract_of_many {classes : ClassTable} {name : Name}
    (hmany : 1 < classes.occurrences name.bytes) :
    ∃ e, extract classes (.symbolic (.newObjectNamed name)) = .error e := by
  obtain ⟨e, he⟩ := ClassTable.exists_error_of_many hmany
  refine ⟨e, ?_⟩
  unfold extract
  simp only [he, bind, Except.bind]

/-- What is answered at an instantiation whose class name is not ambiguous. -/
theorem extract_eq_ok_iff {F : Frame} {classes : ClassTable} (hF : F.header.classes = classes) {p : Int}
    {b : Bool} {i : Instr} {change : Option Instr}
    (hunique : ∀ name : Name, i = .symbolic (.newObjectNamed name) → classes.occurrences name.bytes ≤ 1) :
    extract classes i = .ok change ↔ Visit.Answers .classes F p b i change := by
  by_cases hs : i.subject? = some .classes
  · obtain ⟨name, rfl⟩ : ∃ name : Name, i = .symbolic (.newObjectNamed name) := by
      cases i with
      | op o => cases hs
      | symbolic s =>
        obtain ⟨code, operands⟩ := s
        cases code <;> cases hs
        exact ⟨operands.1, rfl⟩
    rw [extract, ClassTable.uniqueIndex?_eq (hunique name rfl)]
    constructor
    · intro h
      obtain ⟨index, hindex, h⟩ := Run.except_bind_eq_ok_iff.1 h
      cases index with
      | none => cases h
      | some index =>
        simp only at h
        split at h
        · next hwidth =>
          cases h
          rw [← hF] at hindex
          exact Or.inr ⟨hs, _, Denotes.newObject rfl (Except.ok.inj hindex) hwidth, rfl⟩
        · cases h
    · rintro (⟨hne, -⟩ | ⟨-, o, ho, rfl⟩)
      · exact absurd hs hne
      · obtain ⟨name', index, heq, hindex, hwidth, rfl⟩ := ho.newObject_of_subject rfl
        cases heq
        rw [← hF, hindex]
        simp only [bind, Except.bind, if_pos hwidth]
        rfl
  · rw [extract_of_subject_ne hs]
    constructor
    · intro h
      cases h
      exact Or.inl ⟨hs, rfl⟩
    · rintro (⟨-, rfl⟩ | ⟨h, -⟩)
      · rfl
      · exact absurd h hs

/-- Removing succeeds if no class name is ambiguous and all instantiations by name can be lowered. -/
theorem remove_eq_ok_iff {classes : ClassTable} {n : Nat} {rs rs' : List Routine}
    {F : Int → Routine → Frame} (hF : ∀ start r, (F start r).header.classes = classes) (p : Int) :
    remove classes rs = .ok (n, rs') ↔
      (∀ r ∈ rs, ∀ name : Name, .symbolic (.newObjectNamed name) ∈ r →
        classes.occurrences name.bytes ≤ 1) ∧
      n = Routine.remaining .classes rs ∧
        Along (fun start r r' => r.Lowered .classes (F start r) start r') p rs rs' := by
  have hiff : (∀ r ∈ rs, ∀ name : Name, .symbolic (.newObjectNamed name) ∈ r →
      classes.occurrences name.bytes ≤ 1) →
      (remove classes rs = .ok (n, rs') ↔ n = Routine.remaining .classes rs ∧
        Along (fun start r r' => r.Lowered .classes (F start r) start r') p rs rs') := by
    intro hunique
    unfold remove
    rw [Visit.each_eq_ok_iff extract_marker (F := F) (p := p), Along.iff]
    · exact (Routine.Lowered.iff_of_unmarked (by decide) (by decide)).symm
    · intro start r q b i j hr hi _
      exact extract_eq_ok_iff (hF start r) fun name heq => hunique r hr name (heq ▸ hi)
  constructor
  · intro h
    have hunique : ∀ r ∈ rs, ∀ name : Name, .symbolic (.newObjectNamed name) ∈ r →
        classes.occurrences name.bytes ≤ 1 := by
      intro r hr name hname
      refine Nat.le_of_not_lt fun hmany => ?_
      obtain ⟨q, r', -, hspell⟩ := (Visit.along_of_each extract_marker h p).exists_right_of_mem hr
      obtain ⟨_, _, _, -, hstep⟩ := hspell.exists_of_mem hname rfl
      obtain ⟨e, he⟩ := extract_of_many hmany
      rw [he] at hstep
      rcases hstep with ⟨hnone, -⟩ | hsome
      · cases hnone
      · cases hsome
    exact ⟨hunique, (hiff hunique).1 h⟩
  · rintro ⟨hunique, h⟩
    exact (hiff hunique).2 h

end ClassNames

end ScriptImage
