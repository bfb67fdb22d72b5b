import DnaLedger.Dht.Hashring
import DnaLedger.Dht.Store
import DnaLedger.Econ.Conservation
import DnaLedger.Cmt.Election
import DnaLedger.Cmt.Agreement
import DnaLedger.Cmt.BitArray
import DnaLedger.Cmt.Ticker
import DnaLedger.Cmt.TxIndex
import DnaLedger.Cmt.BlockBinding
import DnaLedger.Cmt.PartSetReassembly
import DnaLedger.Ledger.RootBinding
import DnaLedger.Envelope.IdentityBinding
import DnaLedger.Metering.Conservation
import DnaLedger.Evm.ChangeSet
import DnaLedger.Trie.Authenticated
import DnaLedger.Native.Backing
import DnaLedger.Native.CoinRules
import DnaLedger.Zk.MmcsBinding
