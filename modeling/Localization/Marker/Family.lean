import Localization.Text.Basic

/-! The four families of marker calls.

A family fixes where a call keeps its key, its parameters, its options and its
language. -/
namespace Localization.Marker

/-- The families of marker calls. -/
inductive Family where
  /-- `$translate(key, params?, lang?)` -/
  | translate
  /-- `$inlineTranslate(key, ctx, params?, lang?)` -/
  | inlineTranslate
  /-- `$plural(value, key?, params?, options?, lang?)` -/
  | plural
  /-- The function that `useTranslate$()` returns: `t(key, params?, lang?)` -/
  | useTranslate
  deriving DecidableEq, Repr

namespace Family

/-- Every family, in the order in which calls at one place would be taken. -/
def all : List Family := [translate, inlineTranslate, plural, useTranslate]

theorem mem_all (f : Family) : f ∈ all := by cases f <;> decide

/-- The families whose calls take a key, or an array of keys, first. -/
def keyed : List Family := [translate, inlineTranslate, useTranslate]

def keyPosition : Family → Nat
  | plural => 1
  | _ => 0

def paramsPosition : Family → Nat
  | translate | useTranslate => 1
  | inlineTranslate | plural => 2

def optionsPosition? : Family → Option Nat
  | plural => some 3
  | _ => none

def langPosition : Family → Nat
  | translate | useTranslate => 2
  | inlineTranslate => 3
  | plural => 4

end Family

end Localization.Marker
