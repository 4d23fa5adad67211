import Mathlib.Data.List.Basic

/-!
# The RS-232 sender

`sendData` of `rs232sim.c` and the rule by which a receiver reads one frame of levels. The clock
thread is known to the sender by the rate it finds after each wait.
-/

namespace CseOs.Rs232

/-- The variables of `sendData` and the lines it has written, each a level and a time. -/
structure Sender where
  tx : Int
  previousInt : Int
  time : Int
  ticks : Nat
  output : List (Int × Int)

namespace Sender

def levels (s : Sender) : List Int := s.output.map Prod.fst

/-- Write the level, wait for the clock and update the time. -/
def put (baudRate : Nat → Int) (tx : Int) (s : Sender) : Sender :=
  { s with
    tx := tx
    output := s.output ++ [(tx, s.time)]
    time := s.time + baudRate s.ticks
    ticks := s.ticks + 1 }

def bit (d : Int) (j : Nat) : Int := (d >>> j).tmod 2

/-- The level stays while the bit does, and changes with it. -/
def sendBit (baudRate : Nat → Int) (d : Int) (j : Nat) (s : Sender) : Sender :=
  let tx := if bit d j = s.previousInt then s.tx else if s.tx = 0 then 1 else 0
  put baudRate tx { s with previousInt := bit d j }

def sendByte (baudRate : Nat → Int) (d : Int) (s : Sender) : Sender :=
  put baudRate 0 ((List.range 8).foldl (fun s j => sendBit baudRate d j s) (put baudRate 1 s))

/-- The loop of `sendData` from index `i` on, for at most `fuel` rounds. -/
def sendFrom (baudRate : Nat → Int) (data : Nat → Int) : (fuel i : Nat) → Sender → Sender
  | 0, _, s => s
  | fuel + 1, i, s =>
    if data i = -1 then s else sendFrom baudRate data fuel (i + 1) (sendByte baudRate (data i) s)

def sendData (baudRate : Nat → Int) (tx : Int) (data : Nat → Int) : Sender :=
  sendFrom baudRate data 8 0 ⟨tx, 0, 0, 0, []⟩

end Sender

open Sender

/-- Start level 1, eight levels that are the inverse of bits 0 to 7, stop level 0. -/
def decodeFrame : List Int → Option Int
  | [1, l₀, l₁, l₂, l₃, l₄, l₅, l₆, l₇, 0] =>
    some ((1 - l₀) + 2 * (1 - l₁) + 4 * (1 - l₂) + 8 * (1 - l₃) + 16 * (1 - l₄) +
      32 * (1 - l₅) + 64 * (1 - l₆) + 128 * (1 - l₇))
  | _ => none

/-- `n` frames, each by itself. -/
def decode : Nat → List Int → Option (List Int)
  | 0, _ => some []
  | n + 1, levels => do
    let b ← decodeFrame (levels.take 10)
    let bs ← decode n (levels.drop 10)
    return b :: bs

/-- The array holds the bytes, and ends with them: by -1 or because there are eight. -/
structure Packet (data : Nat → Int) (bytes : List Int) : Prop where
  length : bytes.length ≤ 8
  byte : ∀ b ∈ bytes, 0 ≤ b ∧ b < 256
  holds : ∀ i, (h : i < bytes.length) → data i = bytes[i]
  ends : bytes.length < 8 → data bytes.length = -1

/-- One frame for each byte, and the frames give the bytes back. -/
def RoundTrip (bytes levels : List Int) : Prop :=
  levels.length = 10 * bytes.length ∧ decode bytes.length levels = some bytes

/-- The levels of a byte that is sent after the bit `p`. -/
def frame (p d : Int) : List Int :=
  1 :: (List.range 8).map (fun j => if p = 0 then 1 - bit d j else bit d j) ++ [0]

def frames : Int → List Int → List Int
  | _, [] => []
  | p, d :: ds => frame p d ++ frames (bit d 7) ds

variable {baudRate : Nat → Int} {s : Sender} {d p : Int} {bytes : List Int}

private theorem bit_cases (h : 0 ≤ d) (j : Nat) : bit d j = 0 ∨ bit d j = 1 := by
  have hshift : 0 ≤ d >>> j := by
    rw [Int.shiftRight_eq_div_pow]
    exact Int.ediv_nonneg h (Int.natCast_nonneg _)
  rw [bit, Int.tmod_eq_emod_of_nonneg hshift]
  omega

theorem levels_sendBits (hd : 0 ≤ d) (hp : p = 0 ∨ p = 1) (n : Nat)
    (hprev : s.previousInt = 0 ∨ s.previousInt = 1)
    (htx : s.tx = if p = 0 then 1 - s.previousInt else s.previousInt) :
    let s' := (List.range n).foldl (fun s j => sendBit baudRate d j s) s
    s'.levels = s.levels ++ (List.range n).map (fun j => if p = 0 then 1 - bit d j else bit d j) ∧
      s'.previousInt = (if n = 0 then s.previousInt else bit d (n - 1)) ∧
      s'.tx = if p = 0 then 1 - s'.previousInt else s'.previousInt := by
  induction n with
  | zero => simp [htx]
  | succ n ih =>
    simp only [List.range_succ, List.foldl_append, List.foldl_cons, List.foldl_nil,
      List.map_append, List.map_cons, List.map_nil]
    generalize (List.range n).foldl (fun s j => sendBit baudRate d j s) s = s' at ih
    obtain ⟨hlevels, hprev', htx'⟩ := ih
    have hbit := bit_cases hd n
    have hlast : s'.previousInt = 0 ∨ s'.previousInt = 1 := by
      rw [hprev']
      split
      · exact hprev
      · exact bit_cases hd _
    have htx'' : (sendBit baudRate d n s').tx = if p = 0 then 1 - bit d n else bit d n := by
      show (if bit d n = s'.previousInt then s'.tx else if s'.tx = 0 then 1 else 0) = _
      rw [htx']
      rcases hp with rfl | rfl <;> rcases hbit with hb | hb <;> rcases hlast with hl | hl <;>
        simp [hb, hl]
    refine ⟨?_, by simp [sendBit, put], htx''⟩
    rw [← List.append_assoc, ← hlevels, ← htx'']
    simp [levels, sendBit, put]

private theorem levels_sendByte (hd : 0 ≤ d) (hprev : s.previousInt = 0 ∨ s.previousInt = 1) :
    (sendByte baudRate d s).levels = s.levels ++ frame s.previousInt d ∧
      (sendByte baudRate d s).previousInt = bit d 7 := by
  have hbits := @levels_sendBits baudRate (put baudRate 1 s) _ _ hd hprev 8 hprev (by
    show (1 : Int) = if s.previousInt = 0 then 1 - s.previousInt else s.previousInt
    cases hprev with
    | inl h => simp [h]
    | inr h => simp [h])
  have hstart : (put baudRate 1 s).levels = s.levels ++ [1] := by simp [levels, put]
  rw [hstart] at hbits
  constructor
  · show ((_ ++ [((0 : Int), _)]).map Prod.fst) = _
    rw [List.map_append]
    show levels _ ++ [0] = _
    rw [hbits.1]
    simp [frame]
  · show Sender.previousInt (List.foldl _ _ _) = _
    rw [hbits.2.1]
    rfl

theorem levels_sendFrom {data : Nat → Int} (fuel i : Nat) (hbyte : ∀ b ∈ bytes, 0 ≤ b ∧ b < 256)
    (hdata : ∀ k, (h : k < bytes.length) → data (i + k) = bytes[k]) (hfuel : bytes.length ≤ fuel)
    (hends : bytes.length < fuel → data (i + bytes.length) = -1)
    (hprev : s.previousInt = 0 ∨ s.previousInt = 1) :
    (sendFrom baudRate data fuel i s).levels = s.levels ++ frames s.previousInt bytes := by
  induction fuel generalizing i s bytes with
  | zero =>
    have hnil : bytes = [] := List.eq_nil_of_length_eq_zero (by omega)
    simp [sendFrom, hnil, frames]
  | succ fuel ih =>
    cases bytes with
    | nil =>
      have hend : data i = -1 := by simpa using hends (by simp)
      simp [sendFrom, hend, frames]
    | cons d ds =>
      have hd : 0 ≤ d := (hbyte d (by simp)).1
      have hfirst : data i = d := hdata 0 (by simp)
      have hsent := @levels_sendByte baudRate _ _ hd hprev
      have hrest : ∀ b ∈ ds, 0 ≤ b ∧ b < 256 := fun b hb => hbyte b (by simp [hb])
      rw [sendFrom, if_neg (by omega), hfirst, ih (i + 1) hrest ?_ (by simpa using hfuel) ?_ ?_,
        hsent.1, hsent.2, frames, List.append_assoc]
      · intro k hk
        have h := hdata (k + 1) (by simpa using hk)
        rw [show i + (k + 1) = i + 1 + k by omega] at h
        simpa using h
      · intro hlt
        have h := hends (by simpa using hlt)
        rwa [List.length_cons, show i + (ds.length + 1) = i + 1 + ds.length by omega] at h
      · rw [hsent.2]
        exact bit_cases hd 7

private theorem levels_sendData {data : Nat → Int} {tx : Int} (h : Packet data bytes) :
    (sendData baudRate tx data).levels = frames 0 bytes := by
  rw [sendData, levels_sendFrom 8 0 h.byte (fun k hk => by simpa using h.holds k hk) h.length
    (fun hlt => by simpa using h.ends hlt) (Or.inl rfl)]
  rfl

/-- A frame sent after a set bit gives the complement of its byte. -/
def received : Int → List Int → List Int
  | _, [] => []
  | p, d :: ds => (if p = 0 then d else 255 - d) :: received (bit d 7) ds

private theorem length_frame : (frame p d).length = 10 := by
  simp [frame]

private theorem length_frames : (frames p bytes).length = 10 * bytes.length := by
  induction bytes generalizing p with
  | nil => rfl
  | cons d ds ih =>
    rw [frames, List.length_append, length_frame, ih, List.length_cons]
    omega

private theorem decodeFrame_frame (h : 0 ≤ d ∧ d < 256) (hp : p = 0 ∨ p = 1) :
    decodeFrame (frame p d) = some (if p = 0 then d else 255 - d) := by
  have hall : ∀ n : Fin 256, decodeFrame (frame 0 n.val) = some (n.val : Int) ∧
      decodeFrame (frame 1 n.val) = some (255 - n.val : Int) := by
    decide +kernel
  have hn := hall ⟨d.toNat, by omega⟩
  rw [Int.toNat_of_nonneg h.1] at hn
  cases hp with
  | inl hp => simpa [hp] using hn.1
  | inr hp => simpa [hp] using hn.2

private theorem decode_frames (hbyte : ∀ b ∈ bytes, 0 ≤ b ∧ b < 256) (hp : p = 0 ∨ p = 1) :
    decode bytes.length (frames p bytes) = some (received p bytes) := by
  induction bytes generalizing p with
  | nil => rfl
  | cons d ds ih =>
    have hd := hbyte d (by simp)
    have hlen : (frame p d).length = 10 := length_frame
    have htake : (frames p (d :: ds)).take 10 = frame p d := by
      rw [frames, ← hlen, List.take_left]
    have hdrop : (frames p (d :: ds)).drop 10 = frames (bit d 7) ds := by
      rw [frames, ← hlen, List.drop_left]
    rw [List.length_cons, decode, htake, hdrop, decodeFrame_frame hd hp,
      ih (fun b hb => hbyte b (by simp [hb])) (bit_cases hd.1 7)]
    rfl

private theorem bit_seven (h : 0 ≤ d ∧ d < 256) : bit d 7 = 0 ↔ d < 128 := by
  have hshift : d >>> (7 : Nat) = d / 128 := Int.shiftRight_eq_div_pow d 7
  rw [bit, hshift, Int.tmod_eq_emod_of_nonneg (by omega)]
  omega

theorem received_eq (hbyte : ∀ b ∈ bytes, 0 ≤ b ∧ b < 256) :
    received p bytes = bytes ↔ (bytes ≠ [] → p = 0) ∧ ∀ b ∈ bytes.dropLast, b < 128 := by
  induction bytes generalizing p with
  | nil => simp [received]
  | cons d ds ih =>
    have hd := hbyte d (by simp)
    have hhead : (if p = 0 then d else 255 - d) = d ↔ p = 0 := by
      split <;> omega
    rw [received, List.cons.injEq, hhead, ih (fun b hb => hbyte b (by simp [hb])), bit_seven hd]
    cases ds with
    | nil => simp
    | cons e es => simp

/-- The line code gives the bytes back if and only if no byte but the last has its top bit set. -/
theorem sendData_roundTrip (baudRate : Nat → Int) (tx : Int) (data : Nat → Int) (bytes : List Int)
    (h : Packet data bytes) :
    RoundTrip bytes (sendData baudRate tx data).levels ↔ ∀ b ∈ bytes.dropLast, b < 128 := by
  have hreceived := received_eq (p := 0) h.byte
  rw [RoundTrip, levels_sendData h, decode_frames h.byte (Or.inl rfl), Option.some_inj, hreceived]
  simp [length_frames]

/-- Two bytes, ended by -1. -/
def pair (a b : Int) : Nat → Int
  | 0 => a
  | 1 => b
  | _ => -1

private theorem packet_pair {a b : Int} (ha : 0 ≤ a ∧ a < 256) (hb : 0 ≤ b ∧ b < 256) :
    Packet (pair a b) [a, b] where
  length := by simp
  byte := by simpa using ⟨ha, hb⟩
  holds := by
    intro i hi
    match i with
    | 0 => rfl
    | 1 => rfl
  ends := by
    intro _
    rfl

theorem sendData_roundTrip_hi :
    RoundTrip [0x68, 0x69] (sendData (fun _ => 104) 0 (pair 0x68 0x69)).levels := by
  apply (sendData_roundTrip (fun _ => 104) 0 (pair 0x68 0x69) [0x68, 0x69]
    (packet_pair (by decide) (by decide))).2
  decide

/-- The second frame is sent against the top bit of the first byte. -/
theorem sendData_inverted :
    ¬ ∀ (baudRate : Nat → Int) (tx : Int) (data : Nat → Int) (bytes : List Int),
      Packet data bytes → RoundTrip bytes (sendData baudRate tx data).levels := by
  intro hall
  have h := (hall (fun _ => 104) 0 (pair 128 0) [128, 0] (packet_pair (by decide) (by decide))).2
  rw [levels_sendData (packet_pair (by decide) (by decide)),
    @decode_frames _ [128, 0] (by decide) (Or.inl rfl)] at h
  exact absurd h (by decide)

end CseOs.Rs232
