import RankedPlans.Digest.Sha256
import RankedPlans.Json.Printer
import RankedPlans.Text.Utf8

/-!
Content digests. A digest is the SHA-256 hash of a domain tag followed by a payload; tags end in a
zero byte, so equal payloads hashed for different purposes have different digests.
-/

namespace RankedPlans

/-- What a digest is taken of. -/
inductive Domain where
  | task
  | plan
  | planningResult
  | symmetryGroup
  | benchGuard
deriving DecidableEq, Repr

namespace Domain

/-- Every domain. -/
def all : List Domain :=
  [task, plan, planningResult, symmetryGroup, benchGuard]

/-- The text that precedes the payload. -/
def tag : Domain → String
  | task => "KPLAN::TASK::V1\x00"
  | plan => "KPLAN::PLAN::V1\x00"
  | planningResult => "KPLAN::PLANNING_RESULT::V1\x00"
  | symmetryGroup => "KPLAN::SYMMETRY_GROUP::V1\x00"
  | benchGuard => "KPLAN::BENCH_GUARD::V1\x00"

end Domain

/-- A digest with the name of its algorithm. -/
structure ContentHash where
  algorithm : String
  digest : String
deriving DecidableEq, Repr

namespace ContentHash

/-- Reads the name and the digest around the first colon; neither may be empty. -/
def parse? (text : String) : Option ContentHash :=
  let cs := text.toList
  let algorithm := cs.takeWhile (· ≠ ':')
  match cs.dropWhile (· ≠ ':') with
  | _ :: digest =>
    if algorithm = [] ∨ digest = [] then none
    else some ⟨String.ofList algorithm, String.ofList digest⟩
  | [] => none

/-- The name, a colon and the digest. -/
def text (h : ContentHash) : String :=
  h.algorithm ++ ":" ++ h.digest

/-- Two lower-case hexadecimal digits for each byte. -/
def hex (bytes : List UInt8) : String :=
  String.ofList (bytes.flatMap fun b => [Json.hexDigit (b.toNat / 16), Json.hexDigit (b.toNat % 16)])

/-- The digest of a payload in a domain. -/
def ofBytes (domain : Domain) (payload : List UInt8) : ContentHash :=
  ⟨"sha256", hex (Sha256.hash (Utf8.encode domain.tag ++ payload))⟩

/-- The digest of a text in a domain. -/
def ofText (domain : Domain) (payload : String) : ContentHash :=
  ofBytes domain (Utf8.encode payload)

end ContentHash

end RankedPlans
