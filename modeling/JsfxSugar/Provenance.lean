import JsfxSugar.Digest
import JsfxSugar.Json

/-! Where generated text comes from. -/

namespace JsfxSugar

/-- The version of this program. -/
def version : Text := "0.3.0".toList

/-- The first line of generated text. -/
def banner : Text := "/* Generated by: JSFX Pre-Processor */".toList

/-- The digest of a source, and the version that worked on it. -/
structure Provenance where
  digest : List UInt8
  version : Text
  deriving DecidableEq, Repr

namespace Provenance

def ofSource (source : Text) : Provenance where
  digest := Digest.sha256 (String.ofList source).toUTF8.toList
  version := JsfxSugar.version

/-- The digest in hexadecimal, two digits for each byte. -/
def hash (provenance : Provenance) : Text :=
  provenance.digest.flatMap fun b => [Json.hexDigit (b.toNat / 16), Json.hexDigit (b.toNat % 16)]

def json (provenance : Provenance) : Json :=
  .object [
    ("source_hash".toList, .string provenance.hash),
    ("preprocessor_version".toList, .string provenance.version)]

end Provenance

end JsfxSugar
