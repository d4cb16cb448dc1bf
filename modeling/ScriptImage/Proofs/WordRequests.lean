import ScriptImage.Proofs.WordReading
import ScriptImage.Proofs.WordWriting

/-!
# Accesses and requests in both arithmetics

A computation in word arithmetic agrees with one in natural numbers if both end in the same
state with the same value or the same error, so the first causes no fault.  This is told of
states with an invariant, and the state at the end has it too and follows the one before.  Both
are what a `Guard` is about: for a window it is that the window lies in its buffer and the cursor
in the window, for a workspace that all of its windows do.

Agreement carries over from parts to compositions, hence to every request.
-/

namespace ScriptImage

/-! ## Agreement -/

/-- An invariant of states, and what may become of a state that has it. -/
structure Guard (σ : Type) where
  Holds : σ → Prop
  Follows : σ → σ → Prop
  refl : ∀ s, Holds s → Follows s s
  trans : ∀ s t u, Follows s t → Follows t u → Follows s u

namespace Fault

variable {σ α β : Type} {g : Guard σ} {s : σ}

/-- From this state on both computations end alike, in a state with the invariant. -/
def AgreesAt (g : Guard σ) (s : σ) (m : EStateM Fault σ α) (act : EStateM Error σ α) : Prop :=
  ∃ s', g.Holds s' ∧ g.Follows s s' ∧
    ((∃ a, act s = .ok a s' ∧ m s = .ok a s') ∨
      ∃ e, act s = .error e s' ∧ m s = .error (.refused e) s')

/-- Both computations end alike, whenever they begin with the invariant. -/
def Agrees (g : Guard σ) (m : EStateM Fault σ α) (act : EStateM Error σ α) : Prop :=
  ∀ s, g.Holds s → AgreesAt g s m act

theorem agrees_pure (g : Guard σ) (a : α) : Agrees g (pure a) (pure a) :=
  fun s hs => ⟨s, hs, g.refl s hs, .inl ⟨a, rfl, rfl⟩⟩

theorem agrees_throw (g : Guard σ) (e : Error) :
    Agrees g (throw (.refused e) : EStateM Fault σ α) (throw e) :=
  fun s hs => ⟨s, hs, g.refl s hs, .inr ⟨e, rfl, rfl⟩⟩

theorem AgreesAt.bind {m : EStateM Fault σ α} {act : EStateM Error σ α} {k : α → EStateM Fault σ β}
    {next : α → EStateM Error σ β} (h : AgreesAt g s m act)
    (hnext : ∀ a s', act s = .ok a s' → g.Holds s' → AgreesAt g s' (k a) (next a)) :
    AgreesAt g s (m >>= k) (act >>= next) := by
  obtain ⟨s', hs', hfollows, ⟨a, hact, hm⟩ | ⟨e, hact, hm⟩⟩ := h
  · obtain ⟨s'', hs'', hfollows', hrest⟩ := hnext a s' hact hs'
    refine ⟨s'', hs'', g.trans s s' s'' hfollows hfollows', ?_⟩
    rw [Run.bind_of_ok hact, Run.bind_of_ok hm]
    exact hrest
  · exact ⟨s', hs', hfollows, .inr ⟨e, Run.bind_of_error hact, Run.bind_of_error hm⟩⟩

theorem Agrees.bind {m : EStateM Fault σ α} {act : EStateM Error σ α} {k : α → EStateM Fault σ β}
    {next : α → EStateM Error σ β} (h : Agrees g m act) (hnext : ∀ a, Agrees g (k a) (next a)) :
    Agrees g (m >>= k) (act >>= next) :=
  fun s hs => (h s hs).bind fun a s' _ hs' => hnext a s' hs'

theorem Agrees.forM {γ : Type} {m : γ → EStateM Fault σ PUnit} {act : γ → EStateM Error σ PUnit}
    (h : ∀ x, Agrees g (m x) (act x)) (xs : List γ) : Agrees g (xs.forM m) (xs.forM act) := by
  induction xs with
  | nil => exact agrees_pure g _
  | cons x xs ih => exact (h x).bind fun _ => ih

/-- A step that only looks at the state. -/
theorem AgreesAt.of_ok {x : EStateM Fault σ β} {k : β → EStateM Fault σ α} {act : EStateM Error σ α}
    {b : β} (hx : x s = .ok b s) (h : AgreesAt g s (k b) act) : AgreesAt g s (x >>= k) act := by
  unfold AgreesAt at h ⊢
  rw [Run.bind_of_ok hx]
  exact h

/-- With the state at the end of a computation known, an equation of outcomes is an agreement. -/
theorem AgreesAt.of_eq {m : EStateM Fault σ α} {act : EStateM Error σ α} (h : m s = refusing (act s))
    (hleft : g.Holds (Run.left act s) ∧ g.Follows s (Run.left act s)) : AgreesAt g s m act := by
  refine ⟨Run.left act s, hleft.1, hleft.2, ?_⟩
  cases hact : act s with
  | ok a s' =>
    rw [hact] at h
    rw [Run.left_of_ok hact]
    exact .inl ⟨a, rfl, h⟩
  | error e s' =>
    rw [hact] at h
    rw [Run.left_of_error hact]
    exact .inr ⟨e, rfl, h⟩

end Fault

open Fault

/-! ## Accesses -/

/-- A window that lies in its buffer, with its cursor in the window. -/
def Focus.guard : Guard Focus where
  Holds := Focus.Sound
  Follows := Focus.Follows
  refl := fun _ hf => hf.follows
  trans := fun _ _ _ h h' => h.trans h'

namespace Focus

variable {α : Type} {f f' : Focus} {act : WindowM α}

theorem Sound.left_of_ok {a : α} (hf : f.Sound) (hfollows : f.Follows f') (h : act f = .ok a f') :
    guard.Holds (Run.left act f) ∧ guard.Follows f (Run.left act f) := by
  rw [Run.left_of_ok h]
  exact ⟨hfollows.sound hf, hfollows⟩

theorem Sound.left_of_error {e : Error} (hf : f.Sound) (h : act f = .error e f) :
    guard.Holds (Run.left act f) ∧ guard.Follows f (Run.left act f) := by
  rw [Run.left_of_error h]
  exact ⟨hf, hf.follows⟩

/-- An access that is either made or refused. -/
theorem Sound.left_of_ite {p : Prop} [Decidable p] {a : α} {e : Error} (hf : f.Sound)
    (h : act f = if p then .ok a f' else .error e f) (hfollows : p → f.Follows f') :
    guard.Holds (Run.left act f) ∧ guard.Follows f (Run.left act f) := by
  by_cases hp : p
  · rw [if_pos hp] at h
    exact hf.left_of_ok (hfollows hp) h
  · rw [if_neg hp] at h
    exact hf.left_of_error h

/-- A write is made or refused, if not refused because the window is read-only. -/
theorem Sound.left_of_write {p q : Prop} [Decidable p] [Decidable q] {a : α} {e e' : Error} (hf : f.Sound)
    (h : act f = if q then .error e' f else if p then .ok a f' else .error e f)
    (hfollows : p → f.Follows f') :
    guard.Holds (Run.left act f) ∧ guard.Follows f (Run.left act f) := by
  by_cases hq : q
  · rw [if_pos hq] at h
    exact hf.left_of_error h
  · rw [if_neg hq] at h
    exact hf.left_of_ite h hfollows

end Focus

namespace MachineM

variable {α : Type}

theorem agrees_window : Agrees Focus.guard window WindowM.window :=
  fun f hf => ⟨f, hf, hf.follows, .inl ⟨f.window, rfl, rfl⟩⟩

/-- A change of the byte order, or of the read-only flag to on. -/
theorem agrees_modifyWindow {change : Window → Window}
    (h : ∀ f : Focus, f.Sound → f.Follows { f with window := change f.window }) :
    Agrees Focus.guard (modifyWindow change) (WindowM.modifyWindow change) :=
  fun f hf => ⟨_, (h f hf).sound hf, h f hf, .inl ⟨(), rfl, rfl⟩⟩

theorem agrees_getBytes (p n : Nat) :
    Agrees Focus.guard (getWith n id p) (WindowM.getBytes p n) := by
  intro f hf
  have hget := WindowM.getBytes_eq p n f
  refine .of_eq ?_ (hf.left_of_ite hget fun _ => hf.follows)
  rw [getWith_eq hf, hget, refusing_ite]
  rfl

theorem agrees_readBytes (n : Nat) :
    Agrees Focus.guard (readWith n id) (WindowM.readBytes n) := by
  intro f hf
  have hread := WindowM.readBytes_eq n f
  refine .of_eq ?_ (hf.left_of_ite hread Focus.follows_seek)
  rw [readWith_eq hf, hread, refusing_ite]
  rfl

theorem agrees_setBytes (p : Nat) (bytes : List UInt8) :
    Agrees Focus.guard (setBytes p bytes) (WindowM.setBytes p bytes) :=
  fun f hf => .of_eq (setBytes_eq hf p bytes)
    (hf.left_of_write (WindowM.setBytes_eq p bytes f) hf.follows_store)

theorem agrees_writeBytes (bytes : List UInt8) :
    Agrees Focus.guard (writeBytes bytes) (WindowM.writeBytes bytes) :=
  fun f hf => .of_eq (writeBytes_eq hf bytes)
    (hf.left_of_write (WindowM.writeBytes_eq bytes f) hf.follows_write)

theorem agrees_content : Agrees Focus.guard content WindowM.content :=
  fun f hf => ⟨f, hf, hf.follows, .inl ⟨_, rfl, content_eq hf⟩⟩

theorem agrees_seek (p : Nat) : Agrees Focus.guard (seek p) (WindowM.seek p) := by
  intro f hf
  refine .of_eq (seek_eq p f) ?_
  have hseek := WindowM.seek_eq p f
  by_cases hp : f.window.length < p
  · rw [if_pos hp] at hseek
    exact hf.left_of_error hseek
  · rw [if_neg hp] at hseek
    exact hf.left_of_ok (Focus.follows_seek (by omega)) hseek

theorem agrees_skip (n : Nat) : Agrees Focus.guard (skip n) (WindowM.skip n) :=
  fun f hf => .of_eq (skip_eq hf n) (hf.left_of_ite (WindowM.skip_eq n f) Focus.follows_seek)

theorem agrees_getPart (p n : Nat) (readOnly : Bool) :
    Agrees Focus.guard (getPart p n readOnly) (WindowM.getPart p n readOnly) :=
  fun f hf => .of_eq (getPart_eq hf p n readOnly)
    (hf.left_of_ite (WindowM.getPart_eq p n readOnly f) fun _ => hf.follows)

theorem agrees_readPart (n : Nat) (readOnly : Bool) :
    Agrees Focus.guard (readPart n readOnly) (WindowM.readPart n readOnly) :=
  fun f hf => .of_eq (readPart_eq hf n readOnly)
    (hf.left_of_ite (WindowM.readPart_eq n readOnly f) Focus.follows_seek)

/-! ## Scalars -/

theorem getWith_map {f : Focus} (hf : f.Sound) (n : Nat) (decode : List UInt8 → α) (p : Nat) :
    getWith n decode p f = (do return decode (← getWith n id p) : MachineM α) f := by
  have hget := getWith_eq hf n (id : List UInt8 → List UInt8) p
  rw [getWith_eq hf]
  by_cases hp : p + n ≤ f.window.length
  · rw [if_pos hp] at hget ⊢
    rw [Run.bind_of_ok hget]
    rfl
  · rw [if_neg hp] at hget ⊢
    rw [Run.bind_of_error hget]

theorem agrees_getScalar (t : Scalar) (order : Option ByteOrder) (p : Nat) :
    Agrees Focus.guard (Machine.getScalar t order p) (WindowM.getScalar t order p) := by
  intro f hf
  have h := (agrees_getBytes p t.width.size).bind
    (fun bytes => agrees_pure Focus.guard (t.ofBytes (order.getD f.window.order) bytes)) f hf
  have hmap := getWith_map hf t.width.size (t.ofBytes (order.getD f.window.order)) p
  unfold AgreesAt at h ⊢
  rw [← hmap] at h
  exact h

theorem readWith_map {f : Focus} (hf : f.Sound) (n : Nat) (decode : List UInt8 → α) :
    readWith n decode f = (do return decode (← readWith n id) : MachineM α) f := by
  have hread := readWith_eq hf n (id : List UInt8 → List UInt8)
  rw [readWith_eq hf]
  by_cases hp : f.window.offset + n ≤ f.window.length
  · rw [if_pos hp] at hread ⊢
    rw [Run.bind_of_ok hread]
    rfl
  · rw [if_neg hp] at hread ⊢
    rw [Run.bind_of_error hread]

theorem agrees_readScalar (t : Scalar) (order : Option ByteOrder) :
    Agrees Focus.guard
      (do
        let w ← window
        readWith t.width.size (t.ofBytes (order.getD w.order)))
      (WindowM.readScalar t order) := by
  intro f hf
  have h := (agrees_readBytes t.width.size).bind
    (fun bytes => agrees_pure Focus.guard (t.ofBytes (order.getD f.window.order) bytes)) f hf
  have hmap := readWith_map hf t.width.size (t.ofBytes (order.getD f.window.order))
  have hscalar := WindowM.readScalar_eq t order f
  unfold AgreesAt at h ⊢
  rw [← hmap] at h
  rw [hscalar, Run.bind_of_ok (window_eq f)]
  exact h

theorem agrees_setScalar (t : Scalar) (order : Option ByteOrder) (p : Nat) (v : t.Bits) :
    Agrees Focus.guard (do setBytes p (← Machine.scalarBytes t order v)) (WindowM.setScalar t order p v) :=
  fun f hf => agrees_setBytes p (t.stored (order.getD f.window.order) v) f hf

theorem agrees_writeScalar (t : Scalar) (order : Option ByteOrder) (v : t.Bits) :
    Agrees Focus.guard (do writeBytes (← Machine.scalarBytes t order v)) (WindowM.writeScalar t order v) := by
  intro f hf
  have h := agrees_writeBytes (t.stored (order.getD f.window.order) v) f hf
  unfold AgreesAt at h ⊢
  rw [WindowM.writeScalar_eq]
  exact h

/-! ## Structures -/

theorem agrees_read {m : MachineM α} {r : ByteOrder → Reader α}
    (h : ∀ order, Performs order m (r order)) :
    Agrees Focus.guard m (WindowM.read r) := by
  intro f hf
  obtain ⟨p, -, hp, hrun⟩ := h f.window.order f hf rfl
  have hfollows := Focus.follows_seek hp
  refine ⟨f.seek p, hfollows.sound hf, hfollows, ?_⟩
  unfold WindowM.read
  rcases hrun with ⟨a, hr, hm⟩ | ⟨e, hr, hm⟩
  · refine .inl ⟨a, ?_, hm⟩
    have hr : r f.window.order (f.window.cursor f.memory) = .ok a (f.seek p).cursor := hr
    rw [hr]
    rfl
  · refine .inr ⟨e, ?_, hm⟩
    have hr : r f.window.order (f.window.cursor f.memory) = .error e (f.seek p).cursor := hr
    rw [hr]
    rfl

theorem agrees_writeCell (c : Cell) :
    Agrees Focus.guard (writeCell c)
      (do WindowM.writePieces (c.pieces (← WindowM.window).order)) :=
  agrees_window.bind fun _ => .forM agrees_writeBytes _

/-- A structure whose announced size fits: what it holds fits too, unless it is plain bytes. -/
theorem agreesAt_writeStructure {f : Focus} (what : Writable) (hf : f.Sound)
    (hw : ¬f.window.readOnly = true) (hsize : f.window.offset + what.size ≤ f.window.length) :
    AgreesAt Focus.guard f (writeStructure what.size what.writeInWords)
      (WindowM.writeStructure what.size fun order => what.encode order) := by
  have hcursor := hf.window.cursor
  have hmodel := WindowM.writeStructure_eq what.size (fun order => what.encode order) (f := f) rfl
  rw [if_neg hw, if_pos hsize] at hmodel
  obtain ⟨e, n, hstores, hannounced, hn⟩ := stores_writable f.window.order what
  have hbytes : e.bytes = (what.encode f.window.order).bytes := by
    rw [← Encoding.bytes_announced what.size e, hannounced, Encoding.bytes_announced]
  have hle : (what.encode f.window.order).bytes.length ≤ n := by
    rw [← hbytes]
    exact hstores.1
  by_cases hlong : f.window.length - f.window.offset < (what.encode f.window.order).bytes.length
  · rw [if_pos hlong] at hmodel
    refine .of_eq ?_ (hf.left_of_error hmodel)
    rw [hmodel]
    rcases hn with hn | ⟨announced, bytes, rfl, rfl⟩
    · omega
    · exact writeStructure_of_overlong hf (eq_false_of_ne_true hw) hsize hlong
  · rw [if_neg hlong] at hmodel
    have hfits : f.window.offset + n ≤ f.window.length := by
      rcases hn with hn | ⟨announced, bytes, rfl, rfl⟩
      · omega
      · have hlong : ¬f.window.length - f.window.offset < bytes.length := hlong
        omega
    have hrun := writeStructure_of_stores hstores hf rfl (eq_false_of_ne_true hw) hsize hfits
    rw [hannounced, hbytes] at hrun
    have hstored : f.Follows (f.store f.window.offset (what.encode f.window.order).bytes) :=
      hf.follows_store (by omega)
    cases hfailure : (Encoding.announced what.size (what.encode f.window.order)).failure with
    | some err =>
      rw [hfailure] at hmodel hrun
      exact ⟨_, hstored.sound hf, hstored, .inr ⟨err, hmodel, hrun⟩⟩
    | none =>
      rw [hfailure] at hmodel hrun
      have hmoved := hstored.trans (Focus.follows_seek hsize)
      exact ⟨_, hmoved.sound hf, hmoved, .inl ⟨(), hmodel, hrun⟩⟩

/-- A structure whose size is a word. -/
theorem agrees_writeStructure (what : Writable) (hwhat : what.size < wordLimit) :
    Agrees Focus.guard (writeStructure what.size what.writeInWords)
      (WindowM.writeStructure what.size fun order => what.encode order) := by
  intro f hf
  have hmodel := WindowM.writeStructure_eq what.size (fun order => what.encode order) (f := f) rfl
  have hmachine := writeStructure_eq what.writeInWords hf hwhat
  by_cases hw : f.window.readOnly = true
  · rw [if_pos hw] at hmodel hmachine
    exact ⟨f, hf, hf.follows, .inr ⟨_, hmodel, hmachine⟩⟩
  · by_cases hsize : f.window.offset + what.size ≤ f.window.length
    · exact agreesAt_writeStructure what hf hw hsize
    · rw [if_neg hw, if_neg hsize] at hmodel hmachine
      exact ⟨f, hf, hf.follows, .inr ⟨_, hmodel, hmachine⟩⟩

theorem agrees_detectOrder :
    Agrees Focus.guard detectOrder (do WindowM.lift (Header.detectOrder (← WindowM.content))) := by
  intro f hf
  have hlength := hf.window.length_content
  have hfirst : ∀ decode : List UInt8 → Nat, getWith 4 decode 0 f =
      if 0 + 4 ≤ f.window.length then .ok (decode ((f.window.content f.memory).take 4)) f
      else .error (.refused (.outsideWindow .read 4 0 f.window.length)) f :=
    fun decode => getWith_eq hf 4 decode 0
  show AgreesAt Focus.guard f detectOrder (WindowM.lift (Header.detectOrder (f.window.content f.memory)))
  unfold Header.detectOrder
  dsimp only
  rw [List.length_take, hlength]
  by_cases hshort : f.window.length < 4
  · have hget := hfirst ByteOrder.little.inverted.decode
    rw [if_neg (by omega)] at hget
    rw [if_pos (by omega)]
    exact ⟨f, hf, hf.follows, .inr ⟨_, rfl, Run.bind_of_error hget⟩⟩
  · have hget : ∀ decode : List UInt8 → Nat,
        getWith 4 decode 0 f = .ok (decode ((f.window.content f.memory).take 4)) f := by
      intro decode
      rw [hfirst, if_pos (by omega)]
    rw [if_neg (by omega)]
    refine .of_ok (hget _) ?_
    by_cases hlittle : ByteOrder.little.inverted.decode ((f.window.content f.memory).take 4) = magic.toNat
    · rw [if_pos hlittle, if_pos hlittle]
      exact agrees_pure Focus.guard ByteOrder.little f hf
    · rw [if_neg hlittle, if_neg hlittle]
      refine .of_ok (hget _) ?_
      by_cases hbig : ByteOrder.big.inverted.decode ((f.window.content f.memory).take 4) = magic.toNat
      · rw [if_pos hbig, if_pos hbig]
        exact agrees_pure Focus.guard ByteOrder.big f hf
      · rw [if_neg hbig, if_neg hbig]
        exact agrees_throw Focus.guard _ f hf

end MachineM

end ScriptImage
