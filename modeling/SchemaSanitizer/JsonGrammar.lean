/-
SchemaSanitizer/JsonGrammar.lean

The JSON texts that the scanner accepts: values with white space between their
tokens, containers nested at most `room` deep (`ValueText room`).

    skipValueAtDepth room c = ok c'    gives    c = blanks, a value, c'
    a value before a delimiter         is what  skipValueAtDepth room  moves past

Design.  Objects and arrays are items with commas between them, and all loops over
them are one (`ItemLoop`): the scanner skips the items, a reader visits them.  The
loop has one lemma for each direction, and the theorems about values are inductions
on the room.
-/
import SchemaSanitizer.JsonTokens

namespace SchemaSanitizer

open Lib List

/-! ### Values -/

/-- A value without parts. -/
inductive ScalarText : Bytes → Prop
  | null : ScalarText (bytes "null")
  | true : ScalarText (bytes "true")
  | false : ScalarText (bytes "false")
  | string {s out : Bytes} (hs : JsonCharacters s out) : ScalarText (quoted s)
  | number {n : Bytes} (hn : NumberText n) : ScalarText n

section Containers

variable {α : Type} (I : α → Bytes → Prop) (first last : UInt8)

/-- Items with commas between them, up to and with the closing bracket. -/
inductive ItemsText : List α → Bytes → Prop
  | last {x : α} {t w : Bytes} (hx : I x t) (hw : Blank w) : ItemsText [x] (t ++ (w ++ [last]))
  | more {x : α} {t w w' u : Bytes} {xs : List α} (hx : I x t) (hw : Blank w) (hw' : Blank w')
      (hxs : ItemsText xs u) : ItemsText (x :: xs) (t ++ (w ++ byte ',' :: (w' ++ u)))

/-- A container and its items. -/
inductive ContainerText : List α → Bytes → Prop
  | empty {w : Bytes} (hw : Blank w) : ContainerText [] (first :: (w ++ [last]))
  | items {w t : Bytes} {xs : List α} (hw : Blank w) (hxs : ItemsText I last xs t) :
      ContainerText xs (first :: (w ++ t))

end Containers

section Values

variable (V : Bytes → Prop)

/-- A member of an object: the key and the text of its value. -/
inductive MemberText : Bytes × Bytes → Bytes → Prop
  | mk {s key v w w' : Bytes} (hs : JsonCharacters s key) (hw : Blank w) (hw' : Blank w')
    (hv : V v) :
      MemberText (key, v) (quoted s ++ (w ++ byte ':' :: (w' ++ v)))

/-- An object and its members. -/
def ObjectText : List (Bytes × Bytes) → Bytes → Prop :=
  ContainerText (MemberText V) (byte '\x7b') (byte '\x7d')

/-- An array and its elements. -/
def ArrayText : List Bytes → Bytes → Prop :=
  ContainerText (fun v t => V v ∧ t = v) (byte '[') (byte ']')

end Values

variable {room : Nat} {t : Bytes} {α : Type} {last first : UInt8} {xs : List α}
  {I : α → Bytes → Prop} {c c' : Cursor}

/-- **A value**, with containers nested at most `room` deep. -/
def ValueText : (room : Nat) → Bytes → Prop
  | 0, t => ScalarText t
  | room + 1, t =>
    ScalarText t ∨
    (∃ ms, ms.length ≤ maxJsonObjectFields ∧ ObjectText (ValueText room) ms t) ∨
    ∃ vs, ArrayText (ValueText room) vs t

theorem ValueText.scalar (h : ScalarText t) : ValueText room t := by
  cases room with
  | zero => exact h
  | succ room => exact .inl h

/-- The brackets that close a container. -/
def isClosing (c : UInt8) : Bool := c == byte ']' || c == byte '\x7d'

theorem closing_byte {c : UInt8} (h : isClosing c = true) :
    isWs c = false ∧ c ≠ byte ',' ∧ isPrimitiveDelim c = true := by
  rcases Bool.or_eq_true_iff.mp h with h | h <;> rw [eq_of_beq h] <;> decide

/-- A text that starts with a byte that is no white space and closes nothing. -/
def StartsValue (text : Bytes) : Prop :=
  ∃ c more, text = c :: more ∧ isWs c = false ∧ isClosing c = false

theorem StartsValue.append {text : Bytes} (h : StartsValue text) (rest : Bytes) :
    StartsValue (text ++ rest) := by
  obtain ⟨c, more, rfl, hc⟩ := h
  exact ⟨c, more ++ rest, rfl, hc⟩

theorem StartsValue.next {text : Bytes} (h : StartsValue text) : Next (!isWs ·) text := by
  obtain ⟨c, more, rfl, hc, -⟩ := h
  exact next_cons (by simp [hc]) _

theorem ItemsText.starts (hI : ∀ x t, I x t → StartsValue t) (h : ItemsText I last xs t) :
    StartsValue t := by
  cases h with
  | last hx => exact (hI _ _ hx).append _
  | more hx => exact (hI _ _ hx).append _

/-- Past its first byte a container is either closed at once or at its first item. -/
theorem ContainerText.enter (hI : ∀ x t, I x t → StartsValue t) (hlast : isClosing last = true)
    (h : ContainerText I first last xs t) (hmove : c.Moves t c') :
    c.Moves [first] (c.advance 1) ∧
      ((xs = [] ∧ (skipWs (c.advance 1)).Moves [last] c') ∨
        ((skipWs (c.advance 1)).rest.head? ≠ some last ∧
          ∃ u, ItemsText I last xs u ∧ (skipWs (c.advance 1)).Moves u c')) := by
  cases h with
  | empty hw =>
    obtain ⟨c₁, hopen, hmove⟩ := hmove.split_cons
    obtain rfl : c.advance 1 = c₁ := hopen.advance
    obtain ⟨c₂, hblank, hend⟩ := hmove.split
    have hnext : Next (!isWs ·) c₂.rest := by
      rw [hend.rest]
      exact next_cons (by simp [(closing_byte hlast).1]) _
    rw [hw.skipWs hblank hnext]
    exact ⟨hopen, .inl ⟨rfl, hend⟩⟩
  | @items w u xs hw hxs =>
    obtain ⟨c₁, hopen, hmove⟩ := hmove.split_cons
    obtain rfl : c.advance 1 = c₁ := hopen.advance
    obtain ⟨c₂, hblank, hitems⟩ := hmove.split
    have hstart : StartsValue c₂.rest := by
      rw [hitems.rest]
      exact (hxs.starts hI).append _
    rw [hw.skipWs hblank hstart.next]
    refine ⟨hopen, .inr ⟨?_, u, hxs, hitems⟩⟩
    obtain ⟨ch, more, hrest, -, hch⟩ := hstart
    rw [hrest]
    rintro ⟨rfl⟩
    exact absurd (hch.symm.trans hlast) (by simp)

/-! ### The loop over the items of a container -/

/-- What the loops over containers differ in: how an item is read, the closing bracket
and the errors. -/
structure ItemLoop (β : Type) where
  item : Cursor → Parsed (β × Cursor)
  last : UInt8
  full : Nat → Bytes
  unterminated : Nat → Bytes
  expected : Nat → Bytes

namespace ItemLoop

variable {α β σ : Type} (l : ItemLoop β)

/-- The cursor after a comma or the closing bracket, and whether the container goes on. -/
def separate (c : Cursor) : Parsed (Cursor × Bool) :=
  let c := skipWs c
  match c.rest with
  | [] => .error (l.unterminated c.offset)
  | ch :: _ =>
    if ch = byte ',' then .ok (skipWs (c.advance 1), true)
    else if ch = l.last then .ok (c.advance 1, false)
    else .error (l.expected c.offset)

/-- The loop: the state after the last item, and the cursor after the bracket. -/
def run (visit : σ → β → Parsed σ) : (rounds : Nat) → Cursor → σ → Parsed (σ × Cursor)
  | 0, c, _ => .error (l.full c.offset)
  | rounds + 1, c, s => do
    let x ← l.item c
    let s ← visit s x.1
    let r ← l.separate x.2
    if r.2 then run visit rounds r.1 s else .ok (s, r.1)

/-- The loop of the scanner, which visits nothing. -/
def skipItems (rounds : Nat) (c : Cursor) : Parsed Cursor := do
  let r ← l.run (fun _ _ => .ok ()) rounds c ()
  .ok r.2

variable {l} {xs : List α} {I : α → Bytes → Prop}

variable {rounds : Cursor → Nat} {c c' : Cursor} {R : α → β → Prop} {w : Bytes}

theorem moves_separate {r : Cursor × Bool} (h : l.separate c = .ok r) :
    ∃ w, Blank w ∧ ((r.2 = true ∧ ∃ w', Blank w' ∧ c.Moves (w ++ byte ',' :: w') r.1) ∨
      (r.2 = false ∧ c.Moves (w ++ [l.last]) r.1)) := by
  obtain ⟨w, hw, hblank⟩ := moves_skipWs c
  refine ⟨w, hw, ?_⟩
  rw [separate] at h
  split at h
  · cases h
  · rename_i ch rest hrest
    have hhead : (skipWs c).Moves [ch] ((skipWs c).advance 1) := .head (by rw [hrest]; rfl)
    split at h
    · rename_i hcomma
      cases h
      obtain ⟨w', hw', hmove⟩ := moves_skipWs ((skipWs c).advance 1)
      exact .inl ⟨rfl, w', hw', hblank.trans (hcomma ▸ hhead.trans hmove)⟩
    · split at h
      · rename_i hlast
        cases h
        exact .inr ⟨rfl, hblank.trans (hlast ▸ hhead)⟩
      · cases h

/-- **What the loop moved over are items**, by induction on the rounds. -/
theorem moves_run {visit : σ → β → Parsed σ}
    (hitem : ∀ c y c', l.item c = .ok (y, c') → ∃ w x t, Blank w ∧ I x t ∧ c.Moves (w ++ t) c') :
    ∀ (rounds : Nat) {c : Cursor} {s : σ} {r : σ × Cursor}, l.run visit rounds c s = .ok r →
      ∃ w xs t, Blank w ∧ xs.length ≤ rounds ∧ ItemsText I l.last xs t ∧ c.Moves (w ++ t) r.2
  | 0, _, _, _, h => by cases h
  | rounds + 1, c, s, r, h => by
    obtain ⟨⟨y, c₁⟩, hy, h⟩ := bind_eq_ok_iff.mp h
    obtain ⟨s', -, h⟩ := bind_eq_ok_iff.mp h
    obtain ⟨⟨c₂, more⟩, hsep, h⟩ := bind_eq_ok_iff.mp h
    obtain ⟨w, x, t, hw, hx, hmove⟩ := hitem c y c₁ hy
    obtain ⟨w₁, h₁, ⟨rfl, w₂, h₂, hcomma⟩ | ⟨rfl, hlast⟩⟩ := moves_separate hsep
    · obtain ⟨w₃, xs, u, h₃, hlen, hxs, hrest⟩ := moves_run hitem rounds h
      refine ⟨w, x :: xs, _, hw, Nat.succ_le_succ hlen, .more hx h₁ (h₂.append h₃) hxs, ?_⟩
      simpa using hmove.trans (hcomma.trans hrest)
    · cases h
      refine ⟨w, [x], _, hw, by simp, .last hx h₁, ?_⟩
      simpa using hmove.trans hlast

/-- What `skip_object_at_depth` and `skip_array_at_depth` have in common. -/
def skipContainer (l : ItemLoop Unit) (first : UInt8) (rounds : Cursor → Nat) (c : Cursor) :
    Parsed Cursor := do
  let c ← expect c first
  let c := skipWs c
  if c.rest.head? = some l.last then .ok (c.advance 1) else l.skipItems (rounds c) c

/-- A container that is skipped has the text of a container. -/
theorem moves_skipContainer {l : ItemLoop Unit}
    (hitem : ∀ c y c', l.item c = .ok (y, c') → ∃ w x t, Blank w ∧ I x t ∧ c.Moves (w ++ t) c')
    (h : l.skipContainer first rounds c = .ok c') :
    ∃ xs t c₁, xs.length ≤ rounds c₁ ∧ ContainerText I first l.last xs t ∧ c.Moves t c' := by
  obtain ⟨c₁, hopen, h⟩ := bind_eq_ok_iff.mp h
  obtain ⟨w, hw, hblank⟩ := moves_skipWs c₁
  have hstart := (expect_eq_ok_iff.mp hopen).trans hblank
  dsimp only at h
  split at h
  · rename_i hlast
    cases h
    exact ⟨[], _, c, Nat.zero_le _, .empty hw, hstart.trans (.head hlast)⟩
  · obtain ⟨r, hrun, h⟩ := bind_eq_ok_iff.mp h
    cases h
    obtain ⟨w', xs, t, hw', hlen, hxs, hmove⟩ := moves_run hitem _ hrun
    refine ⟨xs, _, _, hlen, .items (hw.append hw') hxs, ?_⟩
    simpa using hstart.trans hmove

/-- An item stands where it should, and is read before a delimiter. -/
def Reads (l : ItemLoop β) (I : α → Bytes → Prop) (R : α → β → Prop) : Prop :=
  ∀ x t, I x t → StartsValue t ∧ ∀ c c', c.Moves t c' → AtDelimiter c'.rest →
    ∃ y, R x y ∧ l.item c = .ok (y, c')

theorem separate_comma {w' : Bytes} (hw : Blank w) (hw' : Blank w')
    (h : c.Moves (w ++ byte ',' :: w') c') (hnext : Next (!isWs ·) c'.rest) :
    l.separate c = .ok (c', true) := by
  obtain ⟨c₁, hblank, hcomma⟩ := h.split
  obtain ⟨c₂, hcomma, hblank'⟩ := hcomma.split_cons
  have hskip : skipWs c = c₁ :=
    hw.skipWs hblank (by rw [hcomma.rest]; exact next_cons (by decide) _)
  rw [separate, hskip, hcomma.rest]
  refine (if_pos rfl).trans ?_
  rw [show c₁.advance 1 = c₂ from hcomma.advance, hw'.skipWs hblank' hnext]

theorem separate_last (hlast : isClosing l.last = true) (hw : Blank w)
    (h : c.Moves (w ++ [l.last]) c') : l.separate c = .ok (c', false) := by
  obtain ⟨hws, hcomma, -⟩ := closing_byte hlast
  obtain ⟨c₁, hblank, hmove⟩ := h.split
  have hskip : skipWs c = c₁ :=
    hw.skipWs hblank (by rw [hmove.rest]; exact next_cons (by simp [hws]) _)
  rw [separate, hskip, hmove.rest]
  refine (if_neg hcomma).trans ((if_pos rfl).trans ?_)
  rw [show c₁.advance 1 = c' from hmove.advance]

/-- **The loop visits the items**: `J` relates the items that are still to come with the
state.  By induction on the items. -/
theorem run_text (hlast : isClosing l.last = true) (hreads : l.Reads I R) {visit : σ → β → Parsed σ}
    {J : List α → σ → Prop}
    (hvisit : ∀ x xs s y, J (x :: xs) s → R x y → ∃ s', visit s y = .ok s' ∧ J xs s')
    (h : ItemsText I l.last xs t) :
    ∀ {rounds : Nat} {c c' : Cursor} {s : σ}, xs.length ≤ rounds → c.Moves t c' → J xs s →
      ∃ s', l.run visit rounds c s = .ok (s', c') ∧ J [] s' := by
  induction h with
  | @last x t w hx hw =>
    intro rounds c c' s hlen hmove hJ
    obtain ⟨rounds, rfl⟩ := Nat.exists_eq_add_one.mpr hlen
    obtain ⟨c₁, hitem, hend⟩ := hmove.split
    have hdelim : AtDelimiter c₁.rest := by
      rw [hend.rest, append_assoc]
      exact hw.atDelimiter (next_cons (closing_byte hlast).2.2 _)
    obtain ⟨y, hy, hread⟩ := (hreads x t hx).2 c c₁ hitem hdelim
    obtain ⟨s', hs', hJ'⟩ := hvisit x [] s y hJ hy
    refine ⟨s', ?_, hJ'⟩
    rw [run, hread, ok_bind, hs', ok_bind, separate_last hlast hw hend]
    rfl
  | @more x t w w' u xs hx hw hw' hxs ih =>
    intro rounds c c' s hlen hmove hJ
    obtain ⟨rounds, rfl⟩ := Nat.exists_eq_add_one.mpr (Nat.lt_of_lt_of_le (Nat.succ_pos _) hlen)
    obtain ⟨c₁, hitem, hmove⟩ := hmove.split
    have hdelim : AtDelimiter c₁.rest := by
      rw [hmove.rest, append_assoc]
      exact hw.atDelimiter (next_cons (by decide) _)
    rw [← cons_append, ← append_assoc] at hmove
    obtain ⟨c₂, hcomma, hrest⟩ := hmove.split
    have hnext : Next (!isWs ·) c₂.rest := by
      rw [hrest.rest]
      exact ((hxs.starts fun x t h => (hreads x t h).1).append _).next
    obtain ⟨y, hy, hread⟩ := (hreads x t hx).2 c c₁ hitem hdelim
    obtain ⟨s', hs', hJ'⟩ := hvisit x xs s y hJ hy
    rw [run, hread, ok_bind, hs', ok_bind, separate_comma hw hw' hcomma hnext]
    exact ih (Nat.le_of_succ_le_succ hlen) hrest hJ'

/-- The text of a container is skipped whole. -/
theorem skipContainer_text {l : ItemLoop Unit} (hlast : isClosing l.last = true)
    {R : α → Unit → Prop} (hreads : l.Reads I R) (h : ContainerText I first l.last xs t)
    (hmove : c.Moves t c')
    (hrounds : ∀ c u, ItemsText I l.last xs u → c.Moves u c' → xs.length ≤ rounds c) :
    l.skipContainer first rounds c = .ok c' := by
  obtain ⟨hopen, ⟨-, hend⟩ | ⟨hne, u, hxs, hitems⟩⟩ :=
    h.enter (fun x t h => (hreads x t h).1) hlast hmove
  · rw [skipContainer, expect_eq_ok_iff.mpr hopen]
    exact (if_pos hend.head?).trans (congrArg Except.ok hend.advance)
  · obtain ⟨s, hrun, -⟩ := run_text hlast hreads (J := fun _ _ => True)
      (fun _ _ _ _ _ _ => ⟨(), rfl, trivial⟩) hxs (hrounds _ u hxs hitems) hitems trivial
    rw [skipContainer, expect_eq_ok_iff.mpr hopen, ok_bind]
    refine (if_neg hne).trans ?_
    rw [skipItems, hrun]
    rfl

end ItemLoop

/-! ### The loops of the scanner -/

variable {v : Bytes}

section Scanner

variable (skip : Cursor → Parsed Cursor)

/-- The text of an error at an offset. -/
def errorAt (message : String) (offset : Nat) : Bytes := bytes message ++ decimal offset

/-- `skip_object_member`, up to the end of the value. -/
def skipMember (c : Cursor) : Parsed (Unit × Cursor) := do
  if c.rest.head? ≠ some (byte '"') then
    parseErrorAt c.offset "JSON parse error: expected string key at byte "
  else
    let c ← skipString c
    let c ← expect (skipWs c) (byte ':')
    let c ← skip (skipWs c)
    .ok ((), c)

/-- The loop of `skip_object_at_depth`. -/
def memberLoop : ItemLoop Unit where
  item := skipMember skip
  last := byte '\x7d'
  full := fun _ => bytes "JSON object field count exceeds safety limit: " ++
    decimal (maxJsonObjectFields + 1) ++ bytes " > " ++ decimal maxJsonObjectFields
  unterminated := errorAt "JSON parse error: unterminated object at byte "
  expected := errorAt "JSON parse error: expected ',' or '\x7d' at byte "

/-- The loop of `skip_array_at_depth`. -/
def elementLoop : ItemLoop Unit where
  item := fun c => do
    let c ← skip c
    .ok ((), c)
  last := byte ']'
  full := errorAt "JSON parse error: unterminated array at byte "
  unterminated := errorAt "JSON parse error: unterminated array at byte "
  expected := errorAt "JSON parse error: expected ',' or ']' at byte "

theorem skipMembers_eq (fields : Nat) (c : Cursor) :
    skipMembers skip fields c = (memberLoop skip).skipItems fields c := by
  induction fields generalizing c with
  | zero => rfl
  | succ fields ih =>
    have hmember : skipObjectMember skip c = skipMember skip c >>= fun r => .ok (skipWs r.2) := by
      rw [skipObjectMember, skipMember]
      split
      · rfl
      · simp only [bind_assoc, ok_bind]
    rw [skipMembers, hmember, ItemLoop.skipItems, ItemLoop.run, bind_assoc, bind_assoc]
    congr 1
    funext r
    simp only [ok_bind, bind_assoc]
    congr 1
    funext r
    split
    · exact ih r.1
    · rfl

theorem skipElements_eq (fuel : Nat) (c : Cursor) :
    skipElements skip fuel c = (elementLoop skip).skipItems fuel c := by
  induction fuel generalizing c with
  | zero => rfl
  | succ fuel ih =>
    rw [skipElements, ItemLoop.skipItems, ItemLoop.run, bind_assoc]
    show _ = (skip c >>= _) >>= _
    rw [bind_assoc]
    congr 1
    funext c'
    simp only [ok_bind, ItemLoop.separate]
    cases (skipWs c').rest with
    | nil => rfl
    | cons ch rest =>
      dsimp only
      split
      · exact ih _
      · have hlast : (elementLoop skip).last = byte ']' := rfl
        rw [hlast]
        split
        · rfl
        · rfl

theorem skipObjectAtDepth_eq (c : Cursor) : skipObjectAtDepth skip c =
    (memberLoop skip).skipContainer (byte '\x7b') (fun _ => maxJsonObjectFields) c := by
  simp only [skipObjectAtDepth, skipMembers_eq]
  rfl

theorem skipArrayAtDepth_eq (c : Cursor) : skipArrayAtDepth skip c =
    (elementLoop skip).skipContainer (byte '[') (fun c => c.rest.length + 1) c := by
  simp only [skipArrayAtDepth, skipElements_eq]
  rfl

variable {skip} {V : Bytes → Prop}

/-- What `skip` moves past is a value after white space. -/
def MovesPast (V : Bytes → Prop) (skip : Cursor → Parsed Cursor) : Prop :=
  ∀ c c', skip c = .ok c' → ∃ w v, Blank w ∧ V v ∧ c.Moves (w ++ v) c'

/-- A value starts where it should, and `skip` moves past it before a delimiter. -/
def Accepted (skip : Cursor → Parsed Cursor) (v : Bytes) : Prop :=
  StartsValue v ∧ ∀ c c', c.Moves v c' → AtDelimiter c'.rest → skip c = .ok c'

theorem skipString_eq_ok_iff :
    skipString c = .ok c' ↔ ∃ s out, JsonCharacters s out ∧ c.Moves (quoted s) c' := by
  constructor
  · intro h
    obtain ⟨⟨s, hasEsc, c₁⟩, hscan, hc⟩ := bind_eq_ok_iff.mp h
    cases hc
    obtain ⟨⟨out, hs⟩, -, hmove⟩ := scanString_eq_ok_iff.mp hscan
    exact ⟨s, out, hs, hmove⟩
  · rintro ⟨s, out, hs, hmove⟩
    rw [skipString, scanString_eq_ok_iff.mpr ⟨⟨out, hs⟩, rfl, hmove⟩]
    rfl

theorem moves_skipMember (hskip : MovesPast V skip) (c : Cursor) (y : Unit) (c' : Cursor)
    (h : skipMember skip c = .ok (y, c')) : ∃ w x t, Blank w ∧ MemberText V x t ∧
    c.Moves (w ++ t) c' := by
  rw [skipMember] at h
  split at h
  · cases h
  · obtain ⟨c₁, hkey, h⟩ := bind_eq_ok_iff.mp h
    obtain ⟨c₂, hcolon, h⟩ := bind_eq_ok_iff.mp h
    obtain ⟨c₃, hvalue, h⟩ := bind_eq_ok_iff.mp h
    cases h
    obtain ⟨s, out, hs, hms⟩ := skipString_eq_ok_iff.mp hkey
    obtain ⟨w₁, h₁, hm₁⟩ := moves_skipWs c₁
    obtain ⟨w₂, h₂, hm₂⟩ := moves_skipWs c₂
    obtain ⟨w₃, v, h₃, hv, hm₃⟩ := hskip _ _ hvalue
    refine ⟨[], (out, v), _, blank_nil, .mk hs h₁ (h₂.append h₃) hv, ?_⟩
    simpa using hms.trans (hm₁.trans ((expect_eq_ok_iff.mp hcolon).trans (hm₂.trans hm₃)))

theorem MemberText.startsValue {x : Bytes × Bytes} (h : MemberText V x t) : StartsValue t := by
  cases h with
  | mk => exact ⟨byte '"', _, rfl, by decide, by decide⟩

theorem MemberText.enter (hV : ∀ v, V v → StartsValue v) {key : Bytes} (h : MemberText V (key, v) t)
    (hmove : c.Moves t c') :
    ∃ s c₁ c₂, JsonCharacters s key ∧ c.Moves (quoted s) c₁ ∧ (skipWs c₁).Moves [byte ':'] c₂ ∧
      (skipWs c₂).Moves v c' ∧ V v := by
  obtain ⟨hs, hw, hw', hv⟩ := h
  obtain ⟨c₁, hkey, hmove⟩ := hmove.split
  obtain ⟨c₂, hblank, hmove⟩ := hmove.split
  obtain ⟨c₃, hcolon, hmove⟩ := hmove.split_cons
  obtain ⟨c₄, hblank', hvalue⟩ := hmove.split
  have hnext : Next (!isWs ·) c₂.rest := by
    rw [hcolon.rest]
    exact next_cons (by decide) _
  have hnext' : Next (!isWs ·) c₄.rest := by
    rw [hvalue.rest]
    exact ((hV v hv).append _).next
  refine ⟨_, c₁, c₃, hs, hkey, ?_, ?_, hv⟩
  · rwa [hw.skipWs hblank hnext]
  · rwa [hw'.skipWs hblank' hnext']

theorem reads_member (hV : ∀ v, V v → Accepted skip v) :
    (memberLoop skip).Reads (MemberText V) fun _ _ => True := by
  rintro ⟨key, v⟩ m h
  refine ⟨h.startsValue, fun c c' hmove hnext => ⟨(), trivial, ?_⟩⟩
  obtain ⟨s, c₁, c₂, hs, hkey, hcolon, hvalue, hv⟩ := h.enter (fun v hv => (hV v hv).1) hmove
  show skipMember skip c = _
  rw [skipMember, if_neg (not_not.mpr hkey.head?),
    skipString_eq_ok_iff.mpr ⟨s, key, hs, hkey⟩, ok_bind,
    expect_eq_ok_iff.mpr hcolon, ok_bind, (hV v hv).2 _ c' hvalue hnext]
  rfl

theorem moves_element (hskip : MovesPast V skip) (c : Cursor) (y : Unit) (c' : Cursor)
    (h : (elementLoop skip).item c = .ok (y, c')) :
    ∃ w x t, Blank w ∧ (V x ∧ t = x) ∧ c.Moves (w ++ t) c' := by
  obtain ⟨_, hvalue, h⟩ := bind_eq_ok_iff.mp h
  cases h
  obtain ⟨w, v, hw, hv, hmove⟩ := hskip _ _ hvalue
  exact ⟨w, v, v, hw, ⟨hv, rfl⟩, hmove⟩

theorem reads_element (hV : ∀ v, V v → Accepted skip v) :
    (elementLoop skip).Reads (fun v t => V v ∧ t = v) fun _ _ => True := by
  rintro _ v ⟨hv, rfl⟩
  refine ⟨(hV v hv).1, fun c c' hmove hnext => ⟨(), trivial, ?_⟩⟩
  show (skip c >>= fun c => Except.ok ((), c)) = _
  rw [(hV v hv).2 c c' hmove hnext]
  rfl

end Scanner

/-! ### The scanner accepts the values -/

/-- What is skipped is a scalar, or a container with one level less to go. -/
theorem skipValueAtDepth_ok (h : skipValueAtDepth room c = .ok c') :
    (∃ v, ScalarText v ∧ (skipWs c).Moves v c') ∨
      ∃ r, room = r + 1 ∧ (skipObjectAtDepth (skipValueAtDepth r) (skipWs c) = .ok c' ∨
        skipArrayAtDepth (skipValueAtDepth r) (skipWs c) = .ok c') := by
  rw [skipValueAtDepth.eq_def] at h
  dsimp only at h
  split at h
  · cases h
  · split at h
    · exact .inl ⟨_, .null, skipLiteral_eq_ok_iff.mp h⟩
    · split at h
      · exact .inl ⟨_, .true, skipLiteral_eq_ok_iff.mp h⟩
      · split at h
        · exact .inl ⟨_, .false, skipLiteral_eq_ok_iff.mp h⟩
        · split at h
          · obtain ⟨s, out, hs, hmove⟩ := skipString_eq_ok_iff.mp h
            exact .inl ⟨_, .string hs, hmove⟩
          · split at h
            · split at h
              · cases h
              · rename_i r
                split at h
                · exact .inr ⟨r, rfl, .inl h⟩
                · exact .inr ⟨r, rfl, .inr h⟩
            · split at h
              · obtain ⟨n, hn, hmove⟩ := moves_number h
                exact .inl ⟨_, .number hn, hmove⟩
              · cases h

/-- **What the scanner moved past is a value.** -/
theorem sound_skipValueAtDepth (room : Nat) :
    MovesPast (ValueText room) (skipValueAtDepth room) := by
  induction room with
  | zero =>
    intro c c' h
    obtain ⟨w, hw, hblank⟩ := moves_skipWs c
    rcases skipValueAtDepth_ok h with ⟨v, hv, hmove⟩ | ⟨r, hr, -⟩
    · exact ⟨w, v, hw, hv, hblank.trans hmove⟩
    · cases hr
  | succ room ih =>
    intro c c' h
    obtain ⟨w, hw, hblank⟩ := moves_skipWs c
    rcases skipValueAtDepth_ok h with ⟨v, hv, hmove⟩ | ⟨r, hr, hobject | harray⟩
    · exact ⟨w, v, hw, .inl hv, hblank.trans hmove⟩
    · cases hr
      rw [skipObjectAtDepth_eq] at hobject
      obtain ⟨ms, t, -, hlen, ht, hmove⟩ :=
        ItemLoop.moves_skipContainer (moves_skipMember ih) hobject
      exact ⟨w, t, hw, .inr (.inl ⟨ms, hlen, ht⟩), hblank.trans hmove⟩
    · cases hr
      rw [skipArrayAtDepth_eq] at harray
      obtain ⟨vs, t, -, -, ht, hmove⟩ := ItemLoop.moves_skipContainer (moves_element ih) harray
      exact ⟨w, t, hw, .inr (.inr ⟨vs, ht⟩), hblank.trans hmove⟩

theorem number_byte {c : UInt8} (h : c = byte '-' ∨ isDigit c = true) :
    isWs c = false ∧ isClosing c = false ∧ c ≠ byte 'n' ∧ c ≠ byte 't' ∧
      c ≠ byte 'f' ∧ c ≠ byte '"' ∧ c ≠ byte '\x7b' ∧ c ≠ byte '[' := by
  revert h
  exact forall_byte (by decide +kernel) c

theorem NumberText.starts {n : Bytes} (h : NumberText n) :
    ∃ c more, n = c :: more ∧ (c = byte '-' ∨ isDigit c = true) := by
  obtain ⟨hsign, hi, -, -⟩ := h
  rcases hsign with rfl | rfl
  · cases hi with
    | zero => exact ⟨_, _, rfl, .inr (by decide)⟩
    | digits hd =>
      obtain ⟨c, more, rfl, hc⟩ := hd.starts
      exact ⟨c, _, rfl, .inr hc⟩
  · exact ⟨_, _, rfl, .inl rfl⟩

theorem ScalarText.startsValue (h : ScalarText v) : StartsValue v := by
  cases h with
  | null => exact ⟨byte 'n', _, rfl, by decide, by decide⟩
  | true => exact ⟨byte 't', _, rfl, by decide, by decide⟩
  | false => exact ⟨byte 'f', _, rfl, by decide, by decide⟩
  | string => exact ⟨byte '"', _, rfl, by decide, by decide⟩
  | number hn =>
    obtain ⟨c, more, rfl, hc⟩ := hn.starts
    exact ⟨c, more, rfl, (number_byte hc).1, (number_byte hc).2.1⟩

theorem StartsValue.accepted (h : StartsValue v)
    (hskip : ∀ c c', c.Moves v c' → AtDelimiter c'.rest → skipWs c = c →
      skipValueAtDepth room c = .ok c') : Accepted (skipValueAtDepth room) v := by
  refine ⟨h, fun c c' hmove hnext => hskip c c' hmove hnext (blank_nil.skipWs (.refl c) ?_)⟩
  rw [hmove.rest]
  exact (h.append _).next

theorem ScalarText.accepted (h : ScalarText v) (room : Nat) :
    Accepted (skipValueAtDepth room) v := by
  refine h.startsValue.accepted fun c c' hmove hnext hws => ?_
  rw [skipValueAtDepth.eq_def]
  dsimp only
  rw [hws, hmove.rest]
  cases h with
  | null | true | false => exact skipLiteral_eq_ok_iff.mpr hmove
  | string hs => exact skipString_eq_ok_iff.mpr ⟨_, _, hs, hmove⟩
  | number hn =>
    obtain ⟨ch, more, rfl, hch⟩ := hn.starts
    obtain ⟨-, -, h1, h2, h3, h4, h5, h6⟩ := number_byte hch
    simp only [cons_append, if_neg h1, if_neg h2, if_neg h3, if_neg h4,
      if_neg (not_or.mpr ⟨h5, h6⟩), if_pos hch, hn.skip hmove hnext]

theorem ContainerText.starts (h : ContainerText I first last xs t) : ∃ more, t = first :: more := by
  cases h with
  | empty | items => exact ⟨_, rfl⟩

theorem ItemsText.length_le (h : ItemsText I last xs t) : xs.length ≤ t.length := by
  induction h with
  | last =>
    simp only [length_cons, length_append, length_nil]
    omega
  | more _ _ _ _ ih =>
    simp only [length_cons, length_append]
    omega

/-- **The scanner moves past a value before a delimiter.** -/
theorem ValueText.accepted (room : Nat) : ∀ v, ValueText room v →
    Accepted (skipValueAtDepth room) v := by
  induction room with
  | zero => exact fun v hv => ScalarText.accepted hv 0
  | succ room ih =>
    rintro v (hv | ⟨ms, hlen, hv⟩ | ⟨vs, hv⟩)
    · exact hv.accepted (room + 1)
    · obtain ⟨more, rfl⟩ := hv.starts
      refine StartsValue.accepted ⟨_, _, rfl, by decide, by decide⟩ fun c c' hmove _ hws => ?_
      rw [skipValueAtDepth, hws, hmove.rest]
      refine (skipObjectAtDepth_eq _ c).trans ?_
      exact ItemLoop.skipContainer_text rfl (reads_member ih) hv hmove fun _ _ _ _ => hlen
    · obtain ⟨more, rfl⟩ := hv.starts
      refine StartsValue.accepted ⟨_, _, rfl, by decide, by decide⟩ fun c c' hmove _ hws => ?_
      rw [skipValueAtDepth, hws, hmove.rest]
      refine (skipArrayAtDepth_eq _ c).trans ?_
      refine ItemLoop.skipContainer_text rfl (reads_element ih) hv hmove fun c u hu hm => ?_
      rw [hm.rest, length_append]
      exact (hu.length_le.trans (Nat.le_add_right _ _)).trans (Nat.le_succ _)

/-- **`json_skip_value` accepts exactly the values**, up to white space around them. -/
theorem jsonSkipValue_eq_ok_iff (text : Bytes) (baseOffset e : Nat) :
    (jsonSkipValue text 0 baseOffset = .ok e ∧ Blank (text.drop e)) ↔
      ∃ w v w', text = w ++ (v ++ w') ∧ Blank w ∧ ValueText maxJsonNestingDepth v ∧ Blank w' ∧
        e = w.length + v.length := by
  have hskip : jsonSkipValue text 0 baseOffset =
      skipValue (skipWs ⟨text, baseOffset⟩) >>= fun c => .ok (c.offset - baseOffset) := rfl
  constructor
  · rintro ⟨h, hblank⟩
    rw [hskip] at h
    obtain ⟨c, hc, he⟩ := bind_eq_ok_iff.mp h
    cases he
    obtain ⟨w₁, hw₁, hmove₁⟩ := moves_skipWs ⟨text, baseOffset⟩
    obtain ⟨w₂, v, hw₂, hv, hmove₂⟩ := sound_skipValueAtDepth _ _ _ hc
    have hmove := hmove₁.trans hmove₂
    have htext : text = w₁ ++ (w₂ ++ v) ++ c.rest := hmove.rest
    have hend : c.offset - baseOffset = (w₁ ++ (w₂ ++ v)).length := by
      rw [hmove.offset, Nat.add_sub_cancel_left]
    rw [hend, htext, drop_left] at hblank
    refine ⟨w₁ ++ w₂, v, c.rest, ?_, hw₁.append hw₂, hv, hblank, ?_⟩
    · rw [htext]
      simp only [append_assoc]
    · rw [hend]
      simp only [length_append, Nat.add_assoc]
  · rintro ⟨w, v, w', rfl, hw, hv, hw', rfl⟩
    obtain ⟨hstart, haccept⟩ := ValueText.accepted _ v hv
    constructor
    · rw [hskip, hw.skipWs (.start w _ _) (hstart.append _).next, skipValue,
        haccept _ _ (.start v w' _) (by simpa using hw'.atDelimiter (next_nil _)), ok_bind]
      congr 1
      show baseOffset + w.length + v.length - baseOffset = _
      omega
    · rw [← append_assoc, ← length_append, drop_left]
      exact hw'

end SchemaSanitizer
