import StdBitcoin.Serdes.Bip144
import StdBitcoin.Commitment
import StdBitcoin.Script.Templates
import StdBitcoin.Script.Bounds
import StdBitcoin.Serdes.SizeLimit
import StdBitcoin.Serdes.SerializedSize
import StdBitcoin.Serdes.Consumption
import StdBitcoin.Validation.Verifier
import StdBitcoin.Validation.WireFormat
import StdBitcoin.CopyOnWrite.ValueSemantics
import StdBitcoin.CopyOnWrite.Interleaving
import StdBitcoin.CopyOnWrite.ValueAssignment
import StdBitcoin.CopyOnWrite.Isolation
import StdBitcoin.CopyOnWrite.Exceptions
import StdBitcoin.Validation.Reception
import StdBitcoin.Validation.Ancestry
import StdBitcoin.Serdes.Preimages
import StdBitcoin.BlockEquality
import StdBitcoin.Validation.ScriptCheck
import StdBitcoin.Coinbase
import StdBitcoin.CopyOnWrite.Comparison
import StdBitcoin.TransactionObjects
import StdBitcoin.HashIdText
import StdBitcoin.Script.Verdicts
import StdBitcoin.Serdes.Endings
import StdBitcoin.Serdes.Reservation
