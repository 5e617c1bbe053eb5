import WebSocket.Lib.Heap
import WebSocket.Proto.Frame

/-!
# Arguments of native calls

`native/values.c` reads what Lua passes. A number is a double, so it may be infinite or none at all; how a
string is read as a number, and what happens to a fraction where an integer is expected, is up to the
version of Lua (`Runtime`).
-/

namespace WebSocket.Native

open Proto Lib

inductive Number where
  | finite (q : Rat)
  | infinite (negative : Bool)
  | nan
  deriving DecidableEq

/-- What a slot of Lua's stack holds; `string` names one of Lua's strings. -/
inductive Value where
  | nil
  | boolean (b : Bool)
  | number (x : Number)
  | string (a : Nat)
  /-- The closure of `copy_str`. -/
  | converter
  | other (tag : Nat)
  deriving DecidableEq

def Value.strings : Value → List Nat
  | .string a => [a]
  | _ => []

structure Runtime where
  /-- `lua_tonumber` of a string. -/
  number : Bytes → Option Number
  /-- `lua_tointeger` of a number. -/
  integer : Number → Option Int

namespace Runtime

variable (rt : Runtime) (strings : Heap Bytes)

/-- `luaL_checknumber`. -/
def checkNumber : Value → Option Number
  | .number x => some x
  | .string a => (strings.read a).bind rt.number
  | _ => none

def optNumber (default : Number) : Value → Option Number
  | .nil => some default
  | v => rt.checkNumber strings v

def checkInteger (v : Value) : Option Int := (rt.checkNumber strings v).bind rt.integer

def optInteger (default : Int) : Value → Option Int
  | .nil => some default
  | v => rt.checkInteger strings v

def checkId (v : Value) : Option Nat :=
  (rt.checkInteger strings v).bind fun n => if 0 < n then some n.toNat else none

/-- The conversion to `uint64_t` cuts off the fraction, and the size is compared with the number again. -/
def optSize (v : Value) : Option Nat :=
  (rt.optNumber strings (.finite 0) v).bind fun n =>
    match n with
    | .finite q =>
      if 0 ≤ q ∧ q ≤ 9007199254740992 then
        let size := q.floor.toNat
        if (size : Rat) = q then some size else none
      else none
    | _ => none

/-- The default is -1, and `false` is 0. -/
def optHeartbeat : Value → Option Rat
  | .nil => some (-1)
  | .boolean b => if b then none else some 0
  | v =>
    (rt.checkNumber strings v).bind fun n =>
      match n with
      | .finite q => if 0 < q ∧ q ≤ 1000000 then some q else none
      | _ => none

end Runtime

/-- `opt_str`: the string to borrow, or none. -/
def optStr : Value → Option (Option Nat)
  | .nil => some none
  | .string a => some (some a)
  | _ => none

end WebSocket.Native
