/-
LatexIndex/Proofs/ReadingTurns.lean

A bibliography is read to its end, whatever it holds.

The reading goes in turns.  Each looks for the next `@` and examines it; then it goes on
after the `@`, after the body of a block, or at the next line that begins with an `@`
if the body is never closed, and it ends where there is no such line.  A turn can fail
only by cutting inside a character (`turn?`).

One turn never fails, and it goes on behind the `@` that it examined (`turn_step`).  So a
run comes to its end, its signs stand one behind the other, and so do the blocks that
were closed (`exists_run`).  What the run comes to are the blocks of the text, and with
them its entries and warnings.
-/
import LatexIndex.Proofs.ByteBlocks
import LatexIndex.Proofs.Citations
import LatexIndex.Proofs.WrittenKeys
import Mathlib.Data.List.Forall2

namespace LatexIndex.Bib

open Text

variable {text front back rest : List Char} {closer : Char} {path : Path}

/-! ### Turns -/

/-- How many line feeds stand before an offset. -/
def feedsBefore (text : List Char) (offset : Nat) : Nat :=
  ((encoded text).take offset).count '\n'.toUInt8

/-- What a turn of the reading made of an `@`. -/
structure Turn where
  /-- Offset of the `@`. -/
  start : Nat
  /-- Offset of the delimiter that closes the body. -/
  stop? : Option Nat
  block? : Option Block
  /-- Offset where the reading goes on. -/
  next? : Option Nat

/-- The turn that examines the `@` at an offset. -/
def turnAt? (text : List Char) (start : Nat) : Option Turn := do
  match ← openingAt? text start with
  | none => return ⟨start, none, none, some (start + 1)⟩
  | some (entryType, closer, inside) =>
    let block := Block.mk (feedsBefore text start) start entryType
    match entryEnd? closer 0 false ((encoded text).drop inside) with
    | none =>
      let next? := (nextStart? ((encoded text).drop (start + 1))).map (start + 1 + ·)
      return ⟨start, none, some (block .unbalanced), next?⟩
    | some length =>
      let body ← slice? text inside (inside + length)
      return ⟨start, some (inside + length), some (block (.body body)), some (inside + length + 1)⟩

/-- The turn that starts at an offset, if there is still an `@`.  Fails if something
cannot be cut out of the text. -/
def turn? (text : List Char) (pos : Nat) : Option (Option Turn) := do
  let rest ← slice? text pos (bytes text)
  match (encoded rest).idxOf? '@'.toUInt8 with
  | none => return none
  | some found => (turnAt? text (pos + found)).map some

/-- A run of the reading to its end, every turn of which succeeds. -/
inductive Run (text : List Char) : Option Nat → List Turn → Prop
  | stop : Run text none []
  | done {pos} : turn? text pos = some none → Run text (some pos) []
  | turn {pos t turns} : turn? text pos = some (some t) → Run text t.next? turns →
      Run text (some pos) (t :: turns)

/-- A block with its byte offset. -/
def Block.inBytes (text : List Char) (b : Block) : Block :=
  { b with start := byteColumn text b.start }

/-! ### One turn -/

theorem feedsBefore_append (front back : List Char) :
    feedsBefore (front ++ back) (bytes front) = front.count '\n' := by
  rw [feedsBefore, encoded_append, ← length_encoded, List.take_left, count_encoded (by decide)]

theorem closes_cons {c : Char} {body : List Char} {inner? : Option (List Char)}
    (h : inner?.map (c :: ·) = some body)
    (hinner : ∀ {inner}, inner? = some inner → ∃ rest, text = inner ++ closer :: rest) :
    ∃ rest, c :: text = body ++ closer :: rest := by
  obtain ⟨inner, hsome, rfl⟩ := Option.map_eq_some_iff.mp h
  obtain ⟨rest, rfl⟩ := hinner hsome
  exact ⟨rest, rfl⟩

/-- A body is followed by the delimiter that closes it. -/
theorem closedBody?_closes {body : List Char} {depth : Nat}
    (h : closedBody? closer depth text = some body) : ∃ rest, text = body ++ closer :: rest := by
  induction depth, text using closedBody?.induct closer generalizing body with
  | case1 depth => cases h
  | case2 depth c text ih =>
      rw [closedBody?] at h
      obtain ⟨inner, hinner, rfl⟩ := Option.map_eq_some_iff.mp h
      obtain ⟨rest, rfl⟩ := ih hinner
      exact ⟨rest, rfl⟩
  | case3 depth c text hlone hc ih =>
      rw [closedBody?.eq_3 _ _ _ _ hlone, if_pos hc] at h
      exact closes_cons h ih
  | case4 depth c text hlone hc hclose ih =>
      rw [closedBody?.eq_3 _ _ _ _ hlone, if_neg hc, if_pos hclose] at h
      exact closes_cons h ih
  | case5 depth c text hlone hc hclose hstop =>
      rw [closedBody?.eq_3 _ _ _ _ hlone, if_neg hc, if_neg hclose, if_pos hstop] at h
      obtain rfl := Option.some.inj h
      rw [Bool.and_eq_true, beq_iff_eq] at hstop
      exact ⟨text, by rw [hstop.1, List.nil_append]⟩
  | case6 depth c text hlone hc hclose hstop ih =>
      rw [closedBody?.eq_3 _ _ _ _ hlone, if_neg hc, if_neg hclose, if_neg hstop] at h
      exact closes_cons h ih

section Opened

variable {written inside body : List Char} {entryType : String} {n : Nat}

theorem turnAt?_stray (h : opening? back = none) :
    turnAt? (front ++ '@' :: back) (bytes front)
      = some ⟨bytes front, none, none, some (bytes front + 1)⟩ := by
  rw [turnAt?, openingAt?_eq, h]
  rfl

/-- What an opened block comes to: where its body begins, and where that ends. -/
theorem opened_eq (h : opening? (written ++ inside) = some (entryType, closer, n, inside)) :
    openingAt? (front ++ '@' :: (written ++ inside)) (bytes front)
        = some (some (entryType, closer.toUInt8, bytes (front ++ '@' :: written))) ∧
      entryEnd? closer.toUInt8 0 false
          ((encoded (front ++ '@' :: (written ++ inside))).drop (bytes (front ++ '@' :: written)))
        = (closedBody? closer 0 inside).map bytes := by
  have hsplit : front ++ '@' :: (written ++ inside) = (front ++ '@' :: written) ++ inside := by simp
  obtain ⟨letters, gap, opener, -, -, -, -, hopener, -⟩ := opening?_eq_some h
  obtain ⟨hascii, hescape⟩ := isAscii_of_closerOf? hopener
  constructor
  · rw [openingAt?_eq, h, Option.map_some, hsplit, bytes_append _ inside, Nat.add_sub_cancel]
  · rw [hsplit, drop_encoded_append, entryEnd?_encoded hascii hescape]

/-- **A block that is never closed** is given up. -/
theorem turnAt?_broken (h : opening? (written ++ inside) = some (entryType, closer, n, inside))
    (hbody : closedBody? closer 0 inside = none) :
    turnAt? (front ++ '@' :: (written ++ inside)) (bytes front) =
      some ⟨bytes front, none, some ⟨front.count '\n', bytes front, entryType, .unbalanced⟩,
        (untilNextBlock? (written ++ inside)).map fun k =>
          bytes (front ++ '@' :: (written ++ inside).take k)⟩ := by
  obtain ⟨hopening, hend⟩ := @opened_eq front closer written inside entryType n h
  rw [hbody] at hend
  have hnext : (nextStart? ((encoded (front ++ '@' :: (written ++ inside))).drop
        (bytes front + 1))).map (bytes front + 1 + ·)
      = (untilNextBlock? (written ++ inside)).map fun k =>
          bytes (front ++ '@' :: (written ++ inside).take k) := by
    rw [drop_encoded_sign, nextStart?_encoded, Option.map_map]
    simp only [bytes_sign, Function.comp_def]
  simp only [turnAt?, hopening, Option.bind_eq_bind, Option.bind_some, hend, Option.map_none,
    feedsBefore_append, hnext, Option.pure_def]

/-- **A block that is closed** is used up. -/
theorem turnAt?_closed
    (h : opening? (written ++ (body ++ closer :: rest))
      = some (entryType, closer, n, body ++ closer :: rest))
    (hbody : closedBody? closer 0 (body ++ closer :: rest) = some body) :
    turnAt? (front ++ '@' :: (written ++ (body ++ closer :: rest))) (bytes front) =
      some ⟨bytes front, some (bytes (front ++ '@' :: written) + bytes body),
        some ⟨front.count '\n', bytes front, entryType, .body body⟩,
        some (bytes (front ++ '@' :: written) + bytes body + 1)⟩ := by
  obtain ⟨hopening, hend⟩ := @opened_eq front closer written _ entryType n h
  rw [hbody] at hend
  have hslice : slice? (front ++ '@' :: (written ++ (body ++ closer :: rest)))
      (bytes (front ++ '@' :: written)) (bytes (front ++ '@' :: written) + bytes body)
        = some body :=
    slice?_eq_some_iff.mpr ⟨front ++ '@' :: written, closer :: rest, by simp, rfl,
      bytes_append _ _⟩
  simp only [turnAt?, hopening, Option.bind_eq_bind, Option.bind_some, hend, Option.map_some,
    feedsBefore_append, hslice, Option.pure_def]

end Opened

theorem untilNextBlock?_splits {k : Nat} (h : untilNextBlock? back = some k) :
    (back.take k).length = k := by
  rw [List.length_take, Nat.min_eq_left]
  induction back generalizing k with
  | nil => cases h
  | cons c back ih =>
      rw [untilNextBlock?] at h
      split at h
      · obtain rfl := Option.some.inj h
        exact Nat.succ_le_succ (Nat.zero_le _)
      · obtain ⟨k, hk, rfl⟩ := Option.map_eq_some_iff.mp h
        exact Nat.succ_le_succ (ih hk)

theorem inBytes_mk (front back : List Char) (line : Nat) (entryType : String) (content : Content) :
    (Block.mk line front.length entryType content).inBytes (front ++ back)
      = ⟨line, bytes front, entryType, content⟩ := by
  rw [Block.inBytes, byteColumn_front]

/-- What a turn leaves to be read: all blocks from an `@` on are its own and those of the
rest. -/
structure Turn.Leaves (front back passed rest : List Char) (t : Turn) : Prop where
  back_eq : back = passed ++ rest
  next : t.next? = some (bytes (front ++ '@' :: passed))
  stop : ∀ stop, t.stop? = some stop →
    bytes front < stop ∧ stop < bytes (front ++ '@' :: passed)
  blocks : (blocksFrom 0 (front.count '\n') front.length ('@' :: back)).map
      (·.inBytes (front ++ '@' :: back))
    = t.block?.toList ++ (blocksFrom 0 ((front ++ '@' :: passed).count '\n')
        (front ++ '@' :: passed).length rest).map (·.inBytes (front ++ '@' :: back))

/-- What the last turn is. -/
structure Turn.Ends (front back : List Char) (t : Turn) : Prop where
  next : t.next? = none
  stop : t.stop? = none
  blocks : (blocksFrom 0 (front.count '\n') front.length ('@' :: back)).map
      (·.inBytes (front ++ '@' :: back)) = t.block?.toList

theorem count_sign (front passed : List Char) :
    (front ++ '@' :: passed).count '\n' = front.count '\n' + passed.count '\n' := by
  rw [List.count_append, List.count_cons_of_ne (by decide)]

theorem length_sign (front passed : List Char) :
    (front ++ '@' :: passed).length = front.length + 1 + passed.length := by
  rw [List.length_append, List.length_cons, Nat.add_right_comm, Nat.add_assoc]

/-- A block that is closed leaves what follows it. -/
theorem leaves_closed {letters gap body : List Char} {opener : Char} (hne : letters ≠ [])
    (htype : letters.all isTypeChar = true) (hgap : gap.all isAsciiBlank = true)
    (hopener : closerOf? opener = some closer)
    (hbody : closedBody? closer 0 (body ++ closer :: rest) = some body) (front : List Char) :
    ∃ t, turnAt? (front ++ '@' :: (letters ++ gap ++ opener :: (body ++ closer :: rest)))
        (bytes front) = some t ∧ t.start = bytes front ∧
      t.Leaves front (letters ++ gap ++ opener :: (body ++ closer :: rest))
        (letters ++ gap ++ opener :: (body ++ [closer])) rest := by
  have hopening := @opening?_append letters gap (body ++ closer :: rest) opener closer hne htype
    hgap hopener
  have hwritten : letters ++ gap ++ opener :: (body ++ closer :: rest)
      = (letters ++ gap ++ [opener]) ++ (body ++ closer :: rest) := by simp
  have hpassed : letters ++ gap ++ opener :: (body ++ closer :: rest)
      = letters ++ gap ++ opener :: (body ++ [closer]) ++ rest := by simp
  have hsize : closer.utf8Size = 1 := utf8Size_of_isAscii (isAscii_of_closerOf? hopener).1
  have hbytes : bytes (front ++ '@' :: (letters ++ gap ++ opener :: (body ++ [closer])))
      = bytes (front ++ '@' :: (letters ++ gap ++ [opener])) + bytes body + 1 := by
    simp only [bytes_append, bytes, hsize]
    omega
  have hturn := @turnAt?_closed front rest closer (letters ++ gap ++ [opener]) body _ _
    (hwritten ▸ hopening) hbody
  rw [← hwritten, ← hbytes] at hturn
  refine ⟨_, hturn, rfl, hpassed, rfl, ?_, ?_⟩
  · rintro stop hstop
    obtain rfl := Option.some.inj hstop
    rw [hbytes, bytes_sign]
    omega
  · have hblocks := @Written.blocksFrom_closed (front.count '\n') front.length rest letters gap
      body opener closer hne htype hgap hopener hbody
    rw [List.cons_append, ← hpassed] at hblocks
    rw [hblocks, List.map_cons, inBytes_mk, count_sign, length_sign]
    rfl

/-- A block that is never closed leaves the next line that begins with an `@`, if there
is one. -/
theorem leaves_broken {written inside : List Char} {entryType : String} {n : Nat}
    (h : opening? (written ++ inside) = some (entryType, closer, n, inside))
    (hbody : closedBody? closer 0 inside = none) (front : List Char) :
    ∃ t, turnAt? (front ++ '@' :: (written ++ inside)) (bytes front) = some t ∧
      t.start = bytes front ∧ (t.Ends front (written ++ inside) ∨
        ∃ passed rest, t.Leaves front (written ++ inside) passed rest) := by
  refine ⟨_, turnAt?_broken h hbody, rfl, ?_⟩
  rcases hnext : untilNextBlock? (written ++ inside) with - | k
  · refine .inl ⟨rfl, rfl, ?_⟩
    simp only [blocksFrom, beq_self_eq_true, if_true, h, hbody, hnext, List.map_cons, List.map_nil,
      inBytes_mk, Option.toList_some]
  · refine .inr ⟨(written ++ inside).take k, (written ++ inside).drop k,
      (List.take_append_drop k _).symm, rfl, by simp, ?_⟩
    have hpass := @Written.blocksFrom_pass (front.count '\n') (front.length + 1)
      ((written ++ inside).drop k) ((written ++ inside).take k)
    rw [untilNextBlock?_splits hnext, List.take_append_drop] at hpass
    have hfeed : ¬ ('@' == '\n') = true := by decide
    simp only [blocksFrom, beq_self_eq_true, if_true, h, hbody, hnext, List.map_cons, if_neg hfeed,
      hpass, inBytes_mk, count_sign, length_sign, untilNextBlock?_splits hnext,
      Option.toList_some, List.singleton_append]

/-- **One turn** succeeds; it ends the reading or goes on behind its `@`. -/
theorem turn_step (front back : List Char) :
    ∃ t, turnAt? (front ++ '@' :: back) (bytes front) = some t ∧ t.start = bytes front ∧
      (t.Ends front back ∨ ∃ passed rest, t.Leaves front back passed rest) := by
  rcases hopening : opening? back with - | ⟨entryType, closer, n, inside⟩
  · -- a stray sign
    refine ⟨_, turnAt?_stray hopening, rfl, .inr ⟨[], back, rfl, ?_, by simp, ?_⟩⟩
    · rw [bytes_sign]
      rfl
    · simp [blocksFrom, hopening]
  · obtain ⟨letters, gap, opener, rfl, hne, htype, hgap, hopener, -⟩ := opening?_eq_some hopening
    rcases hbody : closedBody? closer 0 inside with - | body
    · have hwritten :
          letters ++ gap ++ opener :: inside = (letters ++ gap ++ [opener]) ++ inside := by simp
      rw [hwritten] at hopening ⊢
      exact leaves_broken hopening hbody front
    · obtain ⟨rest, rfl⟩ := closedBody?_closes hbody
      obtain ⟨t, ht, hstart, hleaves⟩ := leaves_closed hne htype hgap hopener hbody front
      exact ⟨t, ht, hstart, .inr ⟨_, rest, hleaves⟩⟩

/-! ### Runs -/

/-- Turns from an offset on, one behind the other: each examines an `@` behind that of the
turns before it, and behind the blocks that they closed. -/
structure Rises (pos : Nat) (turns : List Turn) : Prop where
  least : ∀ t ∈ turns, pos ≤ t.start
  behind : turns.Pairwise fun a b =>
    a.start < b.start ∧ ∀ stop, a.stop? = some stop → stop < b.start
  stop : ∀ t ∈ turns, ∀ stop, t.stop? = some stop → t.start < stop

theorem Rises.nil (pos : Nat) : Rises pos [] :=
  ⟨by simp, .nil, by simp⟩

/-- One more turn before the others, which are all behind it. -/
theorem Rises.cons {pos next : Nat} {t : Turn} {turns : List Turn} (h : Rises next turns)
    (hpos : pos ≤ t.start) (hnext : t.start < next)
    (hstop : ∀ stop, t.stop? = some stop → t.start < stop ∧ stop < next) :
    Rises pos (t :: turns) where
  least := by
    refine List.forall_mem_cons.mpr ⟨hpos, fun b hb => ?_⟩
    have hb := h.least b hb
    omega
  behind := by
    refine List.pairwise_cons.mpr ⟨fun b hb => ?_, h.behind⟩
    have hb := h.least b hb
    refine ⟨by omega, fun stop hs => ?_⟩
    have hs := (hstop stop hs).2
    omega
  stop := List.forall_mem_cons.mpr ⟨fun stop hs => (hstop stop hs).1, h.stop⟩

theorem turn?_none (h : '@' ∉ rest) : turn? (front ++ rest) (bytes front) = some none := by
  simp only [turn?, slice?_rest, Option.bind_eq_bind, Option.bind_some,
    idxOf?_encoded_of_notMem (show IsAscii '@' by decide) h, Option.pure_def]

theorem turn?_some {free : List Char} (h : '@' ∉ free) :
    turn? (front ++ (free ++ '@' :: back)) (bytes front)
      = (turnAt? (front ++ (free ++ '@' :: back)) (bytes (front ++ free))).map some := by
  rw [bytes_append front free]
  simp only [turn?, slice?_rest, Option.bind_eq_bind, Option.bind_some,
    idxOf?_encoded (show IsAscii '@' by decide) h]

theorem blocks_cons (t : Turn) (turns : List Turn) :
    (t :: turns).filterMap (·.block?) = t.block?.toList ++ turns.filterMap (·.block?) := by
  rcases h : t.block? with - | b <;> simp [h]

/-- **A run from any place** between two characters comes to its end. -/
theorem exists_run (front rest : List Char) :
    ∃ turns, Run (front ++ rest) (some (bytes front)) turns ∧
      turns.filterMap (·.block?)
        = (blocksFrom 0 (front.count '\n') front.length rest).map (·.inBytes (front ++ rest)) ∧
      Rises (bytes front) turns := by
  induction hn : rest.length using Nat.strongRecOn generalizing front rest with
  | ind n ih =>
      by_cases hsign : '@' ∈ rest
      · obtain ⟨free, back, rfl, hfree⟩ := List.eq_append_cons_of_mem hsign
        have hturn := @turn?_some front back free hfree
        have hblocks := @Written.blocksFrom_free (front.count '\n') front.length ('@' :: back) free
          hfree
        have hle : bytes front ≤ bytes (front ++ free) := by
          rw [bytes_append]
          exact Nat.le_add_right _ _
        rw [← List.count_append, ← List.length_append] at hblocks
        rw [hblocks, ← List.append_assoc]
        rw [← List.append_assoc] at hturn
        obtain ⟨t, hat, hstart, hends | ⟨passed, rest, hleaves⟩⟩ := turn_step (front ++ free) back
        · rw [hat] at hturn
          refine ⟨[t], .turn hturn (hends.next ▸ .stop), ?_, ?_⟩
          · rw [hends.blocks, blocks_cons, List.filterMap_nil, List.append_nil]
          · refine (Rises.nil (t.start + 1)).cons (hstart ▸ hle) (Nat.lt_succ_self _) ?_
            simp [hends.stop]
        · have hback := hleaves.back_eq
          have hlength : rest.length < n := by
            rw [← hn, hback]
            simp only [List.length_append, List.length_cons]
            omega
          have htext : front ++ free ++ '@' :: back = (front ++ free ++ '@' :: passed) ++ rest := by
            rw [hback]
            simp
          obtain ⟨turns, hrun, hblocks', hrises⟩ :=
            ih rest.length hlength (front ++ free ++ '@' :: passed) rest rfl
          rw [hat] at hturn
          rw [← htext, ← hleaves.next] at hrun
          refine ⟨t :: turns, .turn hturn hrun, ?_, ?_⟩
          · rw [hleaves.blocks, blocks_cons, hblocks', ← htext]
          · refine hrises.cons (hstart ▸ hle) ?_ fun stop hs => hstart ▸ hleaves.stop stop hs
            rw [hstart, bytes_sign]
            omega
      · have hblocks := @Written.blocksFrom_free (front.count '\n') front.length [] rest hsign
        rw [List.append_nil] at hblocks
        refine ⟨[], .done (turn?_none hsign), ?_, .nil _⟩
        rw [hblocks]
        rfl

/-! ### The turns of a run -/

/-- Where a turn stands: its `@`, the line of its block, and the body of that between two
delimiters that belong together. -/
structure Turn.Stands (text : List Char) (t : Turn) : Prop where
  sign : (encoded text)[t.start]? = some '@'.toUInt8
  line : ∀ b, t.block? = some b → b.line = feedsBefore text t.start
  body : ∀ b body, t.block? = some b → b.content = .body body →
    ∃ opened stop closer, t.stop? = some stop ∧ t.start < opened ∧ opened < stop ∧
      (encoded text)[opened]?.bind closerByte? = some closer ∧
      (encoded text)[stop]? = some closer ∧ slice? text (opened + 1) stop = some body

/-- The delimiter before a body. -/
theorem exists_opened {start inside : Nat} {entryType : String} {closer : UInt8}
    (h : openingAt? text start = some (some (entryType, closer, inside))) :
    ∃ opened, inside = opened + 1 ∧ start < opened ∧
      (encoded text)[opened]?.bind closerByte? = some closer := by
  obtain ⟨letters, -, hopening⟩ := Option.bind_eq_some_iff.mp h
  obtain ⟨closer', hcloser, hsome⟩ := Option.bind_eq_some_iff.mp (Option.some.inj hopening)
  split at hsome
  · cases hsome
  · simp only [Option.some.injEq, Prod.mk.injEq] at hsome
    obtain ⟨-, rfl, rfl⟩ := hsome
    exact ⟨_, rfl, by omega, hcloser⟩

/-- What a turn is, by the offset of its `@`. -/
theorem stands_of_turnAt? {start : Nat} {t : Turn} (h : turnAt? text start = some t)
    (hsign : (encoded text)[start]? = some '@'.toUInt8) : t.Stands text := by
  obtain ⟨opening, hopening, hturn⟩ := Option.bind_eq_some_iff.mp h
  rcases opening with - | ⟨entryType, closer, inside⟩
  · obtain rfl := Option.some.inj hturn
    exact ⟨hsign, by simp, by simp⟩
  · dsimp only at hturn
    split at hturn
    · obtain rfl := Option.some.inj hturn
      refine ⟨hsign, ?_, ?_⟩
      · rintro b hb
        obtain rfl := Option.some.inj hb
        rfl
      · rintro b body hb hbody
        obtain rfl := Option.some.inj hb
        cases hbody
    · next length hlength =>
        obtain ⟨body, hslice, hsome⟩ := Option.bind_eq_some_iff.mp hturn
        obtain rfl := Option.some.inj hsome
        refine ⟨hsign, ?_, ?_⟩
        · rintro b hb
          obtain rfl := Option.some.inj hb
          rfl
        · rintro b body' hb hbody
          obtain rfl := Option.some.inj hb
          obtain rfl := Content.body.inj hbody
          obtain ⟨opened, rfl, hopened, hcloser⟩ := exists_opened hopening
          have hstop := getElem?_of_entryEnd? hlength
          rw [List.getElem?_drop] at hstop
          exact ⟨opened, _, closer, rfl, hopened, by omega, hcloser, hstop, hslice⟩

theorem stands_of_turn? {pos : Nat} {t : Turn} (h : turn? text pos = some (some t)) :
    t.Stands text := by
  obtain ⟨rest, hslice, hturn⟩ := Option.bind_eq_some_iff.mp h
  obtain ⟨front, back, rfl, rfl, -⟩ := slice?_eq_some_iff.mp hslice
  split at hturn
  · cases hturn
  · next found hfound =>
      obtain ⟨t', hat, ht'⟩ := Option.map_eq_some_iff.mp hturn
      obtain rfl := Option.some.inj ht'
      refine stands_of_turnAt? hat ?_
      obtain ⟨hlt, hget, -⟩ := List.idxOf?_eq_some_iff.mp hfound
      rw [List.append_assoc, encoded_append, ← length_encoded,
        List.getElem?_append_right (Nat.le_add_right _ _), Nat.add_sub_cancel_left, encoded_append,
        List.getElem?_append_left hlt, List.getElem?_eq_getElem hlt, hget]

theorem Run.stands {pos? : Option Nat} {turns : List Turn} (h : Run text pos? turns) :
    ∀ t ∈ turns, t.Stands text := by
  induction h with
  | stop => simp
  | done _ => simp
  | turn hturn _ ih => exact List.forall_mem_cons.mpr ⟨stands_of_turn? hturn, ih⟩

/-! ### Types and keys -/

theorem isUpper_toLower (c : Char) : c.toLower.isUpper = false := by
  by_cases h : c.val ≥ 'A'.val ∧ c.val ≤ 'Z'.val
  · have hlower : c.toLower.val = c.val + ('a'.val - 'A'.val) := congrArg Char.val (dif_pos h)
    have hfirst : 65 ≤ c.val.toNat := h.1
    have hlast : c.val.toNat ≤ 90 := h.2
    have hval : c.toLower.val.toNat = c.val.toNat + 32 := by
      have hshift : ('a'.val - 'A'.val).toNat = 32 := by decide
      rw [hlower, UInt32.toNat_add, hshift]
      omega
    refine decide_eq_false fun hupper => ?_
    have hle : c.toLower.val.toNat ≤ 90 := hupper.2
    omega
  · have hlower : c.toLower = c := dif_neg h
    rw [hlower]
    exact decide_eq_false h

/-- A type as it is kept: not empty, and in lower case. -/
def IsTypeName (name : String) : Prop :=
  name ≠ "" ∧ ∀ c ∈ name.toList, c.isUpper = false

theorem isTypeName_of_opening? {entryType : String} {n : Nat} {inside : List Char}
    (h : opening? text = some (entryType, closer, n, inside)) : IsTypeName entryType := by
  obtain ⟨letters, gap, opener, -, hne, -, -, -, rfl⟩ := opening?_eq_some h
  constructor
  · intro hempty
    exact hne (List.map_eq_nil_iff.mp (String.ofList_eq_empty_iff.mp hempty))
  · intro c hc
    rw [String.toList_ofList, asciiLower] at hc
    obtain ⟨d, -, rfl⟩ := List.mem_map.mp hc
    exact isUpper_toLower d

theorem isTypeName_of_mem_blocksFrom {pass line start : Nat} {b : Block}
    (h : b ∈ blocksFrom pass line start text) : IsTypeName b.entryType := by
  fun_induction blocksFrom pass line start text with
  | case1 => cases h
  | case2 line start c rest line' pass ih => exact ih h
  | case3 line start c rest line' hc hopening ih => exact ih h
  | case4 line start c rest line' hc entryType closer skipped inside hopening body hbody ih =>
      rcases List.mem_cons.mp h with rfl | h
      · exact isTypeName_of_opening? hopening
      · exact ih h
  | case5 line start c rest line' hc entryType closer skipped inside hopening hbody ih =>
      rcases List.mem_cons.mp h with rfl | h
      · exact isTypeName_of_opening? hopening
      · split at h
        · exact ih _ h
        · cases h
  | case6 line start c rest line' hc ih => exact ih h

theorem splitKey_eq (body : List Char) :
    ∃ written, (splitKey body).1 = String.ofList (trim written) ∧ ',' ∉ written := by
  by_cases hmem : ',' ∈ body
  · obtain ⟨key, fieldText, rfl, hkey⟩ := List.eq_append_cons_of_mem hmem
    have hcut : cutAt (· == ',') (key ++ ',' :: fieldText) = some (key, fieldText) :=
      cutAt_append (fun d hd => beq_eq_false_iff_ne.mpr fun h => hkey (h ▸ hd)) rfl
    exact ⟨key, by rw [splitKey, hcut], hkey⟩
  · have hcut : cutAt (· == ',') body = none :=
      cutAt_eq_none fun d hd => beq_eq_false_iff_ne.mpr fun h => hmem (h ▸ hd)
    exact ⟨body, by rw [splitKey, hcut], hmem⟩

theorem solid_splitKey {body : List Char} (h : (splitKey body).1 ≠ "") :
    Solid (splitKey body).1.toList ∧ ',' ∉ (splitKey body).1.toList := by
  obtain ⟨written, hkey, hcomma⟩ := splitKey_eq body
  rw [hkey] at h ⊢
  rw [String.toList_ofList]
  have hpart := trim_infix written
  refine ⟨solid_trim fun hnil => h ?_, fun hmem => hcomma (hpart.subset hmem)⟩
  rw [hnil]

/-! ### Entries and warnings -/

/-- What an entry has for a key and a type. -/
structure Entry.WellFormed (e : Entry) : Prop where
  key : Solid e.key.toList
  commaless : ',' ∉ e.key.toList
  entryType : IsTypeName e.entryType
  keyed : isKeylessType e.entryType = false

/-- A turn whose block came to an entry, which is on the line of its `@` and reaches from
there up to the delimiter. -/
structure Entry.ReadIn (text : List Char) (path : Path) (e : Entry) (t : Turn) : Prop where
  read : ∃ b seen, t.block? = some b ∧ b.read path seen = some (.ok e)
  line : e.line = feedsBefore text t.start
  closed : ∃ stop, t.stop? = some stop ∧ t.start < stop

/-- A turn whose block came to a warning, which is on the line of its `@`. -/
structure WarnedIn (text : List Char) (path : Path) (w : Warning) (t : Turn) : Prop where
  read : ∃ b seen fault, t.block? = some b ∧ b.read path seen = some (.error fault) ∧
    w = fault.warning path b.line
  line : w.line = some (feedsBefore text t.start)

/-- What a block comes to as an entry. -/
theorem Block.exists_of_read_ok {b : Block} {seen : List String} {e : Entry}
    (h : b.read path seen = some (.ok e)) :
    ∃ body, b.content = .body body ∧ isKeylessType b.entryType = false ∧
      (splitKey body).1 ≠ "" ∧
      e = entryOf path b.line b.entryType (splitKey body).1 (splitKey body).2 := by
  unfold Block.read at h
  split at h
  · cases h
  · next body hbody =>
      split at h
      · cases h
      · next hkeyed =>
          dsimp only at h
          split at h
          · cases h
          · next hkey =>
              split at h
              · cases h
              · obtain rfl := Except.ok.inj (Option.some.inj h)
                exact ⟨body, hbody, by simpa using hkeyed, hkey, rfl⟩

theorem wellFormed_entriesFrom (path : Path) (seen : List String) {blocks : List Block}
    (h : ∀ b ∈ blocks, IsTypeName b.entryType) :
    ∀ e ∈ (entriesFrom path seen blocks).1, e.WellFormed := by
  induction blocks generalizing seen with
  | nil => simp [entriesFrom]
  | cons b blocks ih =>
      obtain ⟨htype, hmore⟩ := List.forall_mem_cons.mp h
      rw [entriesFrom]
      split
      · exact ih seen hmore
      · next e hread =>
          obtain ⟨body, -, hkeyed, hkey, rfl⟩ := Block.exists_of_read_ok hread
          obtain ⟨hsolid, hcomma⟩ := solid_splitKey hkey
          exact List.forall_mem_cons.mpr ⟨⟨hsolid, hcomma, htype, hkeyed⟩, ih _ hmore⟩
      · exact ih seen hmore

/-- **Entries and warnings come from turns**, in the order of these. -/
theorem entriesFrom_turns (path : Path) (seen : List String) {turns : List Turn}
    (h : ∀ t ∈ turns, t.Stands text) :
    ∃ chosen warned, chosen.Sublist turns ∧ warned.Sublist turns ∧
      List.Forall₂ (Entry.ReadIn text path)
        (entriesFrom path seen (turns.filterMap (·.block?))).1 chosen ∧
      List.Forall₂ (WarnedIn text path)
        (entriesFrom path seen (turns.filterMap (·.block?))).2 warned := by
  induction turns generalizing seen with
  | nil => exact ⟨[], [], .slnil, .slnil, .nil, .nil⟩
  | cons t turns ih =>
      obtain ⟨hstands, hmore⟩ := List.forall_mem_cons.mp h
      rcases hblock : t.block? with - | b
      · obtain ⟨chosen, warned, hchosen, hwarned, hentries, hwarnings⟩ := ih seen hmore
        rw [List.filterMap_cons, hblock]
        exact ⟨chosen, warned, hchosen.cons t, hwarned.cons t, hentries, hwarnings⟩
      · have hline := hstands.line b hblock
        rw [List.filterMap_cons, hblock]
        dsimp only
        rw [entriesFrom]
        split
        · obtain ⟨chosen, warned, hchosen, hwarned, hentries, hwarnings⟩ := ih seen hmore
          exact ⟨chosen, warned, hchosen.cons t, hwarned.cons t, hentries, hwarnings⟩
        · next e hread =>
            obtain ⟨chosen, warned, hchosen, hwarned, hentries, hwarnings⟩ :=
              ih (e.key :: seen) hmore
            obtain ⟨body, hbody, -, -, he⟩ := Block.exists_of_read_ok hread
            obtain ⟨opened, stop, closer, hstop, hopened, hlt, -⟩ :=
              hstands.body b body hblock hbody
            have hentry : e.ReadIn text path t :=
              ⟨⟨b, seen, hblock, hread⟩, by rw [he]; exact hline, stop, hstop, by omega⟩
            exact ⟨t :: chosen, warned, hchosen.cons_cons t, hwarned.cons t,
              .cons hentry hentries, hwarnings⟩
        · next fault hread =>
            obtain ⟨chosen, warned, hchosen, hwarned, hentries, hwarnings⟩ := ih seen hmore
            have hwarning : WarnedIn text path (fault.warning path b.line) t :=
              ⟨⟨b, seen, fault, hblock, hread, rfl⟩, congrArg some hline⟩
            exact ⟨chosen, t :: warned, hchosen.cons t, hwarned.cons_cons t, hentries,
              .cons hwarning hwarnings⟩

theorem entriesFrom_inBytes (path : Path) (seen : List String) (blocks : List Block) :
    entriesFrom path seen (blocks.map (·.inBytes text)) = entriesFrom path seen blocks := by
  induction blocks generalizing seen with
  | nil => rfl
  | cons b blocks ih =>
      have hread : (b.inBytes text).read path seen = b.read path seen := rfl
      have hline : (b.inBytes text).line = b.line := rfl
      rw [List.map_cons, entriesFrom, entriesFrom, hread]
      rcases b.read path seen with - | fault | e <;> simp only [ih, hline]

/-- **A text is read to its end**, whatever it holds.  The run takes its pieces between
characters, examines one `@` behind the other and comes to the entries and warnings of
the text.  The entries have keys of their own and proper types; they stand one behind
the other, from `@` to closing delimiter; and each of them, like each warning, is on the
line that the line feeds before its `@` count. -/
theorem read_to_the_end (text : String) (path : Path) :
    ∃ turns, Run text.toList (some 0) turns ∧ Rises 0 turns ∧
      (∀ t ∈ turns, t.Stands text.toList) ∧
      (∀ body, cutKey? body = some (splitKey body) ∧
        cutParts? (splitKey body).2 0 0 0 false (splitKey body).2
          = some (fieldParts 0 false (splitKey body).2)) ∧
      read text path = entriesFrom path [] (turns.filterMap (·.block?)) ∧
      ((read text path).1.map Entry.key).Nodup ∧
      (∀ e ∈ (read text path).1, e.WellFormed) ∧
      (∃ chosen, chosen.Sublist turns ∧
        List.Forall₂ (Entry.ReadIn text.toList path) (read text path).1 chosen ∧
        chosen.Pairwise fun a b => ∀ stop, a.stop? = some stop → stop < b.start) ∧
      ∃ warned, warned.Sublist turns ∧
        List.Forall₂ (WarnedIn text.toList path) (read text path).2 warned := by
  obtain ⟨turns, hrun, hblocks, hrises⟩ := exists_run [] text.toList
  have hstands := hrun.stands
  have hread : read text path = entriesFrom path [] (turns.filterMap (·.block?)) := by
    rw [hblocks, entriesFrom_inBytes]
    rfl
  obtain ⟨chosen, warned, hchosen, hwarned, hentries, hwarnings⟩ :=
    entriesFrom_turns path [] hstands
  rw [← hread] at hentries hwarnings
  refine ⟨turns, hrun, hrises, hstands, fun body => ⟨cutKey?_eq body, cutParts?_eq _⟩, hread,
    (keyed_entriesFrom path [] _).keys, ?_, ⟨chosen, hchosen, hentries, ?_⟩, warned, hwarned,
    hwarnings⟩
  · exact wellFormed_entriesFrom path [] fun b hb => isTypeName_of_mem_blocksFrom hb
  · exact (hrises.behind.sublist hchosen).imp And.right

end LatexIndex.Bib
