import Compliance.Bundle.Index
import Compliance.Json.Decoding

namespace Compliance

open Json

def decodeTexts : Decoder (List String) := decodeList decodeText

def Code.record : Record Code where
  name := "CompiledCode"
  blank := { id := "" }
  fields := [
    .must "id" decodeText fun s c => { c with id := s },
    .of "source" decodeText fun s c => { c with source := s },
    .of "entrypoints" decodeTexts fun l c => { c with entrypoints := l },
    .of "datapoints" decodeTexts fun l c => { c with datapoints := l }]

def Code.encode (c : Code) : Value := .object [
  ("id", .string c.id), ("source", .string c.source), ("entrypoints", .strings c.entrypoints),
  ("datapoints", .strings c.datapoints)]

def Property.record : Record Property where
  name := "PropertyBinding"
  blank := ⟨"", ""⟩
  fields := [
    .must "name" decodeText fun s p => { p with name := s },
    .must "mrn" decodeText fun s p => { p with mrn := s }]

def Query.record : Record Query where
  name := "CompiledQuery"
  blank := { mrn := "" }
  fields := [
    .must "mrn" decodeText fun s q => { q with mrn := s },
    .of "title" (decodeNullable decodeText) fun t q => { q with title := t },
    .of "code" (decodeNullable Code.record.decode) fun c q => { q with code := c },
    .of "required_predicate_ids" decodeTexts fun l q => { q with required := l },
    .of "variant_mrns" decodeTexts fun l q => { q with variants := l },
    .of "props" (decodeList Property.record.decode) fun l q => { q with properties := l }]

def QueryRef.record : Record QueryRef where
  name := "QueryRef"
  blank := { mrn := "" }
  fields := [
    .must "mrn" decodeText fun s r => { r with mrn := s },
    .of "action" (decodeWord Action) fun a r => { r with action := a },
    .of "impact" (decodeNullable decodeUInt32) fun i r => { r with impact := i }]

def PolicyRef.record : Record PolicyRef where
  name := "PolicyRef"
  blank := { mrn := "" }
  fields := [
    .must "mrn" decodeText fun s r => { r with mrn := s },
    .of "action" (decodeWord Action) fun a r => { r with action := a },
    .of "scoring_system" (decodeNullable (decodeWord ScoringSystem)) fun s r => { r with scoring := s }]

def RiskFactorRef.record : Record RiskFactorRef where
  name := "RiskFactorRef"
  blank := { mrn := "" }
  fields := [
    .must "mrn" decodeText fun s r => { r with mrn := s },
    .of "action" (decodeWord Action) fun a r => { r with action := a },
    .of "magnitude" (decodeNullable decodeFloat32) fun m r => { r with magnitude := m }]

def FrameworkRef.record : Record FrameworkRef where
  name := "FrameworkRef"
  blank := { mrn := "" }
  fields := [
    .must "mrn" decodeText fun s r => { r with mrn := s },
    .of "action" (decodeWord Action) fun a r => { r with action := a }]

def controlRef : Record Mrn where
  name := "ControlRef"
  blank := ""
  fields := [.must "mrn" decodeText fun s _ => s]

def decodeQueryRefs : Decoder (List QueryRef) := decodeList QueryRef.record.decode

def decodeRiskFactorRefs : Decoder (List RiskFactorRef) := decodeList RiskFactorRef.record.decode

def decodeControlRefs : Decoder (List Mrn) := decodeList controlRef.decode

def PolicyGroup.record : Record PolicyGroup where
  name := "PolicyGroup"
  blank := {}
  fields := [
    .of "uid" (decodeNullable decodeText) fun u g => { g with uid := u },
    .of "type" (decodeWord GroupType) fun t g => { g with type := t },
    .of "review_status" (decodeWord ReviewStatus) fun r g => { g with review := r },
    .of "required_predicate_ids" decodeTexts fun l g => { g with required := l },
    .of "start_date" decodeTimestamp fun t g => { g with start := t },
    .of "end_date" decodeTimestamp fun t g => { g with stop := t },
    .of "checks" decodeQueryRefs fun l g => { g with checks := l },
    .of "queries" decodeQueryRefs fun l g => { g with queries := l },
    .of "policies" (decodeList PolicyRef.record.decode) fun l g => { g with policies := l },
    .of "risk_factors" decodeRiskFactorRefs fun l g => { g with riskFactors := l }]

def Policy.record : Record Policy where
  name := "Policy"
  blank := { mrn := "" }
  fields := [
    .must "mrn" decodeText fun s p => { p with mrn := s },
    .of "owner_mrn" decodeText fun s p => { p with owner := s },
    .of "title" (decodeNullable decodeText) fun t p => { p with title := t },
    .of "scoring_system" (decodeWord ScoringSystem) fun s p => { p with scoring := s },
    .of "groups" (decodeList PolicyGroup.record.decode) fun l p => { p with groups := l },
    .of "risk_factors" decodeRiskFactorRefs fun l p => { p with riskFactors := l }]

def FrameworkGroup.record : Record FrameworkGroup where
  name := "FrameworkGroup"
  blank := {}
  fields := [
    .of "uid" (decodeNullable decodeText) fun u g => { g with uid := u },
    .of "type" (decodeWord GroupType) fun t g => { g with type := t },
    .of "review_status" (decodeWord ReviewStatus) fun r g => { g with review := r },
    .of "start_date" decodeTimestamp fun t g => { g with start := t },
    .of "end_date" decodeTimestamp fun t g => { g with stop := t },
    .of "controls" decodeControlRefs fun l g => { g with controls := l }]

def Framework.record : Record Framework where
  name := "Framework"
  blank := { mrn := "" }
  fields := [
    .must "mrn" decodeText fun s f => { f with mrn := s },
    .of "title" (decodeNullable decodeText) fun t f => { f with title := t },
    .of "dependencies" (decodeList FrameworkRef.record.decode) fun l f => { f with dependencies := l },
    .of "groups" (decodeList FrameworkGroup.record.decode) fun l f => { f with groups := l }]

def ControlMap.record : Record ControlMap where
  name := "ControlMap"
  blank := { mrn := "" }
  fields := [
    .must "mrn" decodeText fun s m => { m with mrn := s },
    .of "checks" decodeQueryRefs fun l m => { m with checks := l },
    .of "queries" decodeQueryRefs fun l m => { m with queries := l },
    .of "controls" decodeControlRefs fun l m => { m with controls := l }]

def FrameworkMap.record : Record FrameworkMap where
  name := "FrameworkMap"
  blank := { mrn := "", framework := "" }
  fields := [
    .must "mrn" decodeText fun s m => { m with mrn := s },
    .must "owner_framework_mrn" decodeText fun s m => { m with framework := s },
    .of "policy_dependencies" decodeTexts fun l m => { m with policies := l },
    .of "controls" (decodeList ControlMap.record.decode) fun l m => { m with controls := l }]

def RiskFactor.record : Record RiskFactor where
  name := "RiskFactor"
  blank := { mrn := "" }
  fields := [
    .must "mrn" decodeText fun s r => { r with mrn := s },
    .of "title" (decodeNullable decodeText) fun t r => { r with title := t },
    .of "magnitude" decodeFloat32 fun m r => { r with magnitude := m },
    .of "action" (decodeWord Action) fun a r => { r with action := a },
    .of "required_predicate_ids" decodeTexts fun l r => { r with required := l },
    .of "checks" decodeQueryRefs fun l r => { r with checks := l }]

def Declarations.record : Record Declarations where
  name := "BundleDoc"
  blank := {}
  fields := [
    .of "owner_mrn" decodeText fun s d => { d with owner := s },
    .of "policies" (decodeList Policy.record.decode) fun l d => { d with policies := l },
    .of "frameworks" (decodeList Framework.record.decode) fun l d => { d with frameworks := l },
    .of "framework_maps" (decodeList FrameworkMap.record.decode) fun l d => { d with maps := l },
    .of "queries" (decodeList Query.record.decode) fun l d => { d with queries := l },
    .of "risk_factors" (decodeList RiskFactor.record.decode) fun l d => { d with riskFactors := l }]

end Compliance
