import CloakCoin.Codec.BigNum
import CloakCoin.Wallet.Caches
import CloakCoin.Chain.Retarget
import CloakCoin.Chain.Modifier
import CloakCoin.Chain.Multisig
import CloakCoin.Chain.BlockSign
import CloakCoin.Chain.Trust
import CloakCoin.Wallet.Disk
import CloakCoin.Wallet.Commit
import CloakCoin.Wallet.FixSpent
import CloakCoin.Wallet.Groupings
import CloakCoin.Wallet.Order
import CloakCoin.Wallet.KeyPool
import CloakCoin.Chain.Merkle
import CloakCoin.Chain.Atomic
import CloakCoin.Chain.Spendable
import CloakCoin.Chain.Orphans
import CloakCoin.Chain.Restart
import CloakCoin.Chain.History
import CloakCoin.Chain.DbTxn
import CloakCoin.Enigma.Participants
import CloakCoin.Enigma.Merge
import CloakCoin.Enigma.Counted
import CloakCoin.Stealth.Exchange
import CloakCoin.Stealth.Pending
import CloakCoin.Stealth.Secrets
import CloakCoin.Stealth.Derive
import CloakCoin.Enigma.Bans
import CloakCoin.Enigma.Announce
import CloakCoin.Net.AddrConsistent
import CloakCoin.Net.Alert
import CloakCoin.Enigma.Relock
import CloakCoin.Stealth.Detect
import CloakCoin.Stealth.Earnings
import CloakCoin.Enigma.Fee
import CloakCoin.Wallet.Connectable
import CloakCoin.Wallet.StakeWeight
