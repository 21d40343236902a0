import AdaOS.Basic
import Mathlib.Logic.Function.Basic

namespace AdaOS
set_option autoImplicit true

def _n : Nat := 624
def _m : Nat := 397
def _w : Nat := 32
def _r : Nat := 31

/-- The constants with the suffix `UL` have 64 bits, also where the words have 32. -/
def UMASK : BitVec 64 := 0xffffffff <<< _r
def LMASK : BitVec 64 := 0xffffffff >>> (_w - _r)
def _a : BitVec 64 := 0x9908b0df
def _u : Nat := 11
def _s : Nat := 7
def _t : Nat := 15
def _l : Nat := 18
def _b : BitVec 64 := 0x9d2c5680
def _c : BitVec 64 := 0xefc60000
def _f : BitVec 64 := 1812433253

/-- `mt_state_t`, whose array has the `_n` words from 0 on. -/
structure MtState where
  stateArray : Nat → BitVec 32
  stateIndex : Int

def MtState.read (s : MtState) (k : Int) : Except Fault (BitVec 32) :=
  if 0 ≤ k ∧ k < _n then .ok (s.stateArray k.toNat) else .error .outOfBounds

def MtState.write (s : MtState) (k : Int) (x : BitVec 32) : Except Fault MtState :=
  if 0 ≤ k ∧ k < _n then .ok { s with stateArray := Function.update s.stateArray k.toNat x }
  else .error .outOfBounds

/-- The loop of `setup_random` from `i` on. -/
def setupRandomFrom (seed : BitVec 32) (i : Nat) (s : MtState) : Nat → Except Fault MtState
  | 0 => .ok s
  | fuel + 1 =>
    if i < _n then do
      let seed := (_f * (seed ^^^ seed >>> (_w - 2)).setWidth 64 + .ofNat 64 i).setWidth 32
      let s ← s.write i seed
      setupRandomFrom seed (i + 1) s fuel
    else .ok s

def setupRandom (seed : BitVec 32) (s : MtState) : Except Fault MtState := do
  let s ← s.write 0 seed
  let s ← setupRandomFrom seed 1 s _n
  return { s with stateIndex := 0 }

/-- `if (j < 0) j += _n`. -/
def circular (j : Int) : Int := if j < 0 then j + _n else j

def tempered (x : BitVec 32) : BitVec 32 :=
  let y := x ^^^ x >>> _u
  let y := (y.setWidth 64 ^^^ (y <<< _s).setWidth 64 &&& _b).setWidth 32
  let y := (y.setWidth 64 ^^^ (y <<< _t).setWidth 64 &&& _c).setWidth 32
  y ^^^ y >>> _l

def randomUint32 (s : MtState) : Except Fault (BitVec 32 × MtState) := do
  let k := s.stateIndex
  let j := circular (k - (_n - 1))
  let xk ← s.read k
  let xj ← s.read j
  let x := (xk.setWidth 64 &&& UMASK ||| xj.setWidth 64 &&& LMASK).setWidth 32
  let xA := x >>> 1
  let xA := if x.setWidth 64 &&& 1 ≠ 0 then (xA.setWidth 64 ^^^ _a).setWidth 32 else xA
  let j := circular (k - (_n - _m))
  let xj ← s.read j
  let x := xj ^^^ xA
  let s ← s.write k x
  let k := if k + 1 ≥ _n then 0 else k + 1
  return (tempered x, { s with stateIndex := k })

/-- What `setup_random` and then `calls` calls of `random_uint32` leave. -/
def afterCalls (seed : BitVec 32) (s : MtState) : Nat → Except Fault MtState
  | 0 => setupRandom seed s
  | calls + 1 => do
    let s ← afterCalls seed s calls
    let (_, s) ← randomUint32 s
    return s

end AdaOS
