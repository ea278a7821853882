import Dataflow.Text.Hex

/-!
# A tree digest of bytes

The 256-bit BLAKE3 digest. The input is cut into chunks of 1024 bytes, each of which is folded block
by block into a chaining value; chaining values are then joined in pairs, the left part of every
join being the largest power of two of chunks that leaves something for the right. Only the node
that remains at the top is compressed with the root flag, and its words are the digest.

All arithmetic is on 32-bit words and wraps.
-/

namespace Dataflow

namespace Digest

/-- A list of words on which one round after another is carried out. -/
abbrev Words :=
  Array UInt32

/-- The word at a position; zero beyond the end. -/
def word (w : Words) (i : Nat) : UInt32 :=
  w.getD i 0

/-- The initial chaining value. -/
def initial : Words :=
  #[0x6A09E667, 0xBB67AE85, 0x3C6EF372, 0xA54FF53A, 0x510E527F, 0x9B05688C, 0x1F83D9AB, 0x5BE0CD19]

/-- From which position each message word of the next round comes. -/
def permutation : List Nat :=
  [2, 6, 3, 10, 7, 0, 4, 13, 1, 11, 12, 5, 9, 14, 15, 8]

/-- Rotation to the right. -/
def rotateRight (x : UInt32) (n : UInt32) : UInt32 :=
  (x >>> n) ||| (x <<< (32 - n))

/-- Mixes two message words into four words of the state. -/
def mix (s : Words) (a b c d : Nat) (x y : UInt32) : Words :=
  let wa := word s a + word s b + x
  let wd := rotateRight (word s d ^^^ wa) 16
  let wc := word s c + wd
  let wb := rotateRight (word s b ^^^ wc) 12
  let wa := wa + wb + y
  let wd := rotateRight (wd ^^^ wa) 8
  let wc := wc + wd
  let wb := rotateRight (wb ^^^ wc) 7
  (((s.setIfInBounds a wa).setIfInBounds b wb).setIfInBounds c wc).setIfInBounds d wd

/-- The positions that the eight mixing steps of a round work on: columns first, then diagonals. -/
def lanes : List (Nat × Nat × Nat × Nat) :=
  [(0, 4, 8, 12), (1, 5, 9, 13), (2, 6, 10, 14), (3, 7, 11, 15),
    (0, 5, 10, 15), (1, 6, 11, 12), (2, 7, 8, 13), (3, 4, 9, 14)]

/-- One round over the whole state. -/
def round (s m : Words) : Words :=
  lanes.zipIdx.foldl
    (fun s lane ↦
      let ((a, b, c, d), i) := lane
      mix s a b c d (word m (2 * i)) (word m (2 * i + 1)))
    s

/-- The message words in the order of the next round. -/
def permute (m : Words) : Words :=
  (permutation.map (word m)).toArray

/-- Seven rounds, with the message permuted between them. -/
def rounds : Nat → Words → Words → Words
  | 0, s, _ => s
  | n + 1, s, m => rounds n (round s m) (permute m)

/-- What goes into one compression. -/
structure Node where
  chaining : Words
  message : Words
  counter : UInt64
  length : UInt32
  flags : UInt32

/-- The first block of a chunk. -/
def chunkStart : UInt32 := 1

/-- The last block of a chunk. -/
def chunkEnd : UInt32 := 2

/-- The join of two chaining values. -/
def parent : UInt32 := 4

/-- The node at the top of the tree. -/
def root : UInt32 := 8

/-- The first eight words that come out of a compression. -/
def Node.compress (n : Node) (extraFlags : UInt32) : Words :=
  let start := n.chaining ++ initial.extract 0 4 ++
    #[n.counter.toUInt32, (n.counter >>> 32).toUInt32, n.length, n.flags ||| extraFlags]
  let s := rounds 7 start n.message
  ((List.range 8).map fun i ↦ word s i ^^^ word s (i + 8)).toArray

/-- Four bytes as a word, the first being the lowest; missing bytes are zero. -/
def wordOfBytes : List UInt8 → UInt32
  | [] => 0
  | b :: rest => b.toUInt32 ||| (wordOfBytes rest <<< 8)

/-- The sixteen words of a block of up to 64 bytes. -/
def blockWords (block : List UInt8) : Words :=
  ((List.range 16).map fun i ↦ wordOfBytes ((block.drop (4 * i)).take 4)).toArray

/-- Folds the blocks of a chunk into the node of its last block. -/
def chunkNode (counter : UInt64) (chaining : Words) (flags : UInt32) (bytes : List UInt8) : Node :=
  let block := bytes.take 64
  let node : Node := ⟨chaining, blockWords block, counter, block.length.toUInt32, flags⟩
  if _h : bytes.length ≤ 64 then { node with flags := flags ||| chunkEnd }
  else chunkNode counter (node.compress 0) 0 (bytes.drop 64)
termination_by bytes.length
decreasing_by simp only [List.length_drop]; omega

/-- How many bytes of `n` go to the left of a join. -/
def leftLength (n : Nat) : Nat :=
  1024 <<< ((n - 1) / 1024).log2

theorem leftLength_pos (n : Nat) : 0 < leftLength n := by
  rw [leftLength, Nat.shiftLeft_eq]
  exact Nat.mul_pos (by decide) (Nat.two_pow_pos _)

theorem leftLength_lt {n : Nat} (h : 1024 < n) : leftLength n < n := by
  have h₁ : (n - 1) / 1024 ≠ 0 := by omega
  have h₂ := Nat.log2_self_le h₁
  rw [leftLength, Nat.shiftLeft_eq]
  omega

/-- The top node of the tree over some bytes, whose first chunk has the number `counter`. -/
def tree (counter : UInt64) (bytes : List UInt8) : Node :=
  if _h : bytes.length ≤ 1024 then chunkNode counter initial chunkStart bytes
  else
    let n := leftLength bytes.length
    let left := (tree counter (bytes.take n)).compress 0
    let right := (tree (counter + (n / 1024).toUInt64) (bytes.drop n)).compress 0
    ⟨initial, left ++ right, 0, 64, parent⟩
termination_by bytes.length
decreasing_by
  · have := leftLength_lt (Nat.lt_of_not_le _h)
    simp only [List.length_take]
    omega
  · have := leftLength_pos bytes.length
    simp only [List.length_drop]
    omega

/-- A word as eight digits, its lowest byte first. -/
def hexWord (w : UInt32) : List Char :=
  [0, 8, 16, 24].flatMap fun n : UInt32 ↦ Hex.byte (w >>> n).toUInt8.toNat

/-- The digest of some bytes, in hexadecimal. -/
def hex (bytes : List UInt8) : String :=
  String.ofList (((tree 0 bytes).compress root).toList.flatMap hexWord)

/-- The digest of the bytes of a text. -/
def ofText (s : String) : String :=
  hex s.toUTF8.toList

end Digest

end Dataflow
